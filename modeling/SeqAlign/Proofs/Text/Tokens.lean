import SeqAlign.Text.Parser

/-!
# SeqAlign.Proofs.Text.Tokens

The tokens that a parser has ahead, and the numbers that integer tokens stand for.

* `Scanner.ahead`: the tokens before the end of input. Looking at the next token leaves them as they
  are (`ahead_look`), and taking it leaves the others (`ahead_of_ne`). They are read from the rest
  of the text (`forall_mem_ahead`).
* `numeral`: the value of a lexeme in decimal. A lexeme is read as a bound if and only if this value
  has 32 bits (`readBound_eq_some`).
* `Parsing.Reads`: a part of the parser has taken these tokens and filed no report.
* `Parsing.Complains`: it has filed a report.
-/

namespace SeqAlign.Text

/-- The value of a lexeme in decimal, whatever its size. -/
def numeral (lexeme : String) : Nat := Nat.ofDigitChars 10 lexeme.toList 0

theorem le_ofDigitChars (cs : List Char) (n : Nat) : n ≤ Nat.ofDigitChars 10 cs n := by
  induction cs generalizing n with
  | nil => exact Nat.le_refl n
  | cons c cs ih =>
    rw [Nat.ofDigitChars_cons]
    have := ih (10 * n + (c.toNat - '0'.toNat))
    omega

theorem toNat_next_value {value : UInt64} (h : value.toNat ≤ 4294967295) (c : Char) :
    (value * 10 + digitValue c).toNat = 10 * value.toNat + (c.toNat - '0'.toNat) := by
  have hc : c.toNat < 4294967296 := UInt32.toNat_lt c.val
  have hdigit : (digitValue c).toNat = c.toNat - '0'.toNat := by
    rw [digitValue, UInt64.toNat_ofNat']
    omega
  have hten : (10 : UInt64).toNat = 10 := rfl
  rw [UInt64.toNat_add, UInt64.toNat_mul, hdigit, hten]
  omega

theorem readDigits_eq_some {value : UInt64} (h : value.toNat ≤ 4294967295) (cs : List Char)
    (n : UInt32) : readDigits value cs = some n ↔ Nat.ofDigitChars 10 cs value.toNat = n.toNat := by
  induction cs generalizing value with
  | nil =>
    have hvalue : value.toUInt32.toNat = value.toNat := by
      rw [UInt64.toNat_toUInt32]
      omega
    rw [readDigits, Nat.ofDigitChars_nil, Option.some.injEq, ← UInt32.toNat_inj, hvalue]
  | cons c cs ih =>
    have hnext := toNat_next_value h c
    have hlimit : (4294967295 : UInt64).toNat = 4294967295 := rfl
    simp only [readDigits, gt_iff_lt, UInt64.lt_iff_toNat_lt, hnext, hlimit,
      Nat.ofDigitChars_cons]
    split
    · -- the value only grows from here
      have hle := le_ofDigitChars cs (10 * value.toNat + (c.toNat - '0'.toNat))
      have hn := UInt32.toNat_lt n
      simp only [reduceCtorEq, false_iff]
      omega
    · rw [ih (by rw [hnext]; omega), hnext]

theorem readBound_eq_some {lexeme : String} {n : UInt32} :
    readBound lexeme = some n ↔ numeral lexeme = n.toNat :=
  readDigits_eq_some (Nat.zero_le _) lexeme.toList n

theorem skipBlanks_suffix (text : List Char) (loc : Location) :
    (skipBlanks text loc).1 <:+ text := by
  fun_induction skipBlanks text loc with
  | case1 => exact List.suffix_rfl
  | case2 cs loc ih => exact ih.trans ((List.suffix_cons _ _).trans (List.suffix_cons _ _))
  | case3 c cs loc _ _ ih => exact ih.trans (List.suffix_cons _ _)
  | case4 c cs loc _ _ _ ih => exact ih.trans (List.suffix_cons _ _)
  | case5 => exact List.suffix_rfl

theorem rest_readToken_suffix (text : List Char) (loc : Location) :
    (readToken text loc).rest <:+ text := by
  have hblanks := skipBlanks_suffix text loc
  unfold readToken
  split
  · exact List.nil_suffix
  · rename_i heq
    rw [heq] at hblanks
    exact (List.dropWhile_suffix _).trans ((List.suffix_cons _ _).trans hblanks)

namespace Scanner

/-- The tokens before the end of input. -/
def ahead (s : Scanner) : List Token := s.drain.1.takeWhile fun t => t.kind ≠ .endOfInput

theorem ahead_of_end {s : Scanner} (h : s.current.kind = .endOfInput) : s.ahead = [] := by
  rw [ahead, drain, dif_pos h]
  simp [h]

theorem ahead_of_ne {s : Scanner} (h : s.current.kind ≠ .endOfInput) :
    s.ahead = s.current :: s.advance.ahead := by
  rw [ahead, drain, dif_neg h]
  simp [h, ahead]

theorem advance_look (s : Scanner) : s.look.advance = s.advance := by
  by_cases h : s.queue = []
  · rw [look_of_queue_eq_nil h]
    simp [advance, next, read, h]
  · rw [look_of_queue_ne_nil h]

theorem ahead_look (s : Scanner) : s.look.ahead = s.ahead := by
  have hcurrent := current_look s
  by_cases h : s.current.kind = .endOfInput
  · rw [ahead_of_end h, ahead_of_end (by rwa [hcurrent])]
  · rw [ahead_of_ne h, ahead_of_ne (by rwa [hcurrent]), hcurrent, advance_look]

/-- What is true of every token that can be read from the text, and of those that wait, is true of
all that lie ahead. -/
theorem forall_mem_ahead {P : Token → Prop} {s : Scanner}
    (hread : ∀ text loc, text <:+ s.text → P (readToken text loc).token)
    (hqueue : ∀ t ∈ s.queue, P t) : ∀ t ∈ s.ahead, P t := by
  induction hn : s.weight using Nat.strongRecOn generalizing s with
  | ind n ih =>
    by_cases hend : s.current.kind = .endOfInput
    · rw [ahead_of_end hend]
      nofun
    · have hrest := ih _ (hn ▸ weight_advance_lt hend) (s := s.advance)
      rw [ahead_of_ne hend]
      obtain ⟨text, loc, queue, err⟩ := s
      cases queue with
      | nil =>
        have hsuffix := rest_readToken_suffix text loc
        exact List.forall_mem_cons.2 ⟨hread text loc List.suffix_rfl,
          hrest (fun rest loc h => hread rest loc (h.trans hsuffix)) nofun rfl⟩
      | cons t ts =>
        obtain ⟨ht, hts⟩ := List.forall_mem_cons.1 hqueue
        exact List.forall_mem_cons.2 ⟨ht, hrest hread hts rfl⟩

end Scanner

namespace Parsing

def ahead (p : Parsing) : List Token := p.scanner.ahead

variable {p q r : Parsing} {t : Token} {ts us : List Token}

theorem advance_look (p : Parsing) : p.look.advance = p.advance := by
  simp only [advance, look, Scanner.advance_look]

theorem ahead_look (p : Parsing) : p.look.ahead = p.ahead := Scanner.ahead_look _

theorem ahead_of_end (h : p.current.kind = .endOfInput) : p.ahead = [] := Scanner.ahead_of_end h

theorem ahead_of_ne (h : p.current.kind ≠ .endOfInput) : p.ahead = p.current :: p.advance.ahead :=
  Scanner.ahead_of_ne h

theorem current_of_nil (h : p.ahead = []) : p.current.kind = .endOfInput := by
  by_cases hend : p.current.kind = .endOfInput
  · exact hend
  · rw [ahead_of_ne hend] at h
    cases h

theorem current_of_cons (h : p.ahead = t :: ts) : p.current = t := by
  by_cases hend : p.current.kind = .endOfInput
  · rw [ahead_of_end hend] at h
    cases h
  · rw [ahead_of_ne hend] at h
    exact (List.cons.inj h).1

/-- From the one to the other these tokens have been taken, and no report has been filed. -/
structure Reads (p : Parsing) (ts : List Token) (q : Parsing) : Prop where
  ahead : p.ahead = ts ++ q.ahead
  silent : q.diagnostics = p.diagnostics

/-- From the one to the other a report has been filed. -/
def Complains (p q : Parsing) : Prop := p.diagnostics.count < q.diagnostics.count

theorem Reads.look (p : Parsing) : Reads p [] p.look := ⟨(ahead_look p).symm, rfl⟩

theorem Reads.advance (h : p.current.kind ≠ .endOfInput) : Reads p [p.current] p.advance :=
  ⟨ahead_of_ne h, rfl⟩

theorem Reads.of_cons (hp : p.ahead = t :: ts) : Reads p [t] p.advance := by
  rw [← current_of_cons hp]
  refine .advance fun hend => ?_
  rw [ahead_of_end hend] at hp
  cases hp

theorem Reads.trans (h : Reads p ts q) (h' : Reads q us r) : Reads p (ts ++ us) r :=
  ⟨by rw [h.ahead, h'.ahead, List.append_assoc], h'.silent.trans h.silent⟩

theorem Reads.rest (h : Reads p ts q) (hp : p.ahead = ts ++ us) : q.ahead = us :=
  List.append_cancel_left (h.ahead.symm.trans hp)

theorem complains_file (p : Parsing) (r : Report) : Complains p (p.file r) :=
  Nat.lt_succ_self p.diagnostics.count

theorem Reads.count_eq (h : Reads p ts q) : q.diagnostics.count = p.diagnostics.count :=
  congrArg Diagnostics.count h.silent

theorem Reads.complains (h : Reads p ts q) (h' : Complains q r) : Complains p r := by
  rwa [Complains, h.count_eq] at h'

theorem Complains.trans_le (h : Complains p q) (hle : q.diagnostics.count ≤ r.diagnostics.count) :
    Complains p r :=
  Nat.lt_of_lt_of_le h hle

end Parsing

end SeqAlign.Text
