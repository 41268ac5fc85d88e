import SeqAlign.Proofs.Text.Reading
import SeqAlign.Text.Printer

/-!
# SeqAlign.Proofs.Text.RoundTrip

What has been printed is read back.

* `Scans`: a text begins with tokens of some kind, with what follows them present, so that no token
  goes on into it.
* `IsIdentifier`: the labels that can be read.
* `scans_suffix`: the written form of a quantifier spells the quantifier.
* `parse_print`: the written form of a sequence of items with such labels is read without a report,
  as the same items.
-/

namespace SeqAlign.Text

/-- From every scanner over the one text, tokens of this kind lead to a scanner over the other. -/
def Scans (text rest : List Char) (Spelled : List Token → Prop) : Prop :=
  ∀ s : Scanner, s.text = text → s.queue = [] →
    ∃ (ts : List Token) (s' : Scanner),
      s.ahead = ts ++ s'.ahead ∧ Spelled ts ∧ s'.text = rest ∧ s'.queue = []

namespace Scans

variable {text rest last : List Char} {Spelled Spelled' : List Token → Prop}

theorem nothing : Scans text text (· = []) := by
  intro s htext hqueue
  exact ⟨[], s, rfl, rfl, htext, hqueue⟩

theorem mono (h : Scans text rest Spelled) (himp : ∀ ts, Spelled ts → Spelled' ts) :
    Scans text rest Spelled' := by
  intro s htext hqueue
  obtain ⟨ts, s', hahead, hspelled, hrest⟩ := h s htext hqueue
  exact ⟨ts, s', hahead, himp ts hspelled, hrest⟩

theorem trans (h : Scans text rest Spelled) (h' : Scans rest last Spelled') :
    Scans text last fun ts => ∃ us vs, us ++ vs = ts ∧ Spelled us ∧ Spelled' vs := by
  intro s htext hqueue
  obtain ⟨us, s', hus, hspelled, htext, hqueue⟩ := h s htext hqueue
  obtain ⟨vs, s'', hvs, hspelled', hlast⟩ := h' s' htext hqueue
  exact ⟨us ++ vs, s'', by rw [hus, hvs, List.append_assoc], ⟨us, vs, rfl, hspelled, hspelled'⟩,
    hlast⟩

end Scans

theorem skipBlanks_of_ofFirst {c : Char} (h : TokenKind.ofFirst c ≠ .undefined) (cs : List Char)
    (loc : Location) : skipBlanks (c :: cs) loc = (c :: cs, loc) := by
  have hbreak : breaksLine c = false := by
    refine Bool.eq_false_iff.2 fun hc => h ?_
    simp only [breaksLine, Bool.or_eq_true, beq_iff_eq] at hc
    rcases hc with rfl | rfl <;> decide
  have hblank : isBlank c = false := by
    refine Bool.eq_false_iff.2 fun hc => h ?_
    simp only [isBlank, Bool.or_eq_true, beq_iff_eq] at hc
    rcases hc with rfl | rfl <;> decide
  rw [skipBlanks]
  · simp only [hbreak, hblank, Bool.false_eq_true, if_false]
  · rintro _ rfl
    simp [breaksLine] at hbreak

/-- A token ends before a byte that does not continue it. -/
theorem scans_token {c : Char} {lexeme rest : List Char} {k : TokenKind}
    (hk : TokenKind.ofFirst c = k) (hdefined : k ≠ .undefined)
    (hlexeme : ∀ x ∈ lexeme, k.continues x = true)
    (hrest : ∀ x ∈ rest.head?, k.continues x = false) :
    Scans (c :: (lexeme ++ rest)) rest fun ts =>
      ∃ t, ts = [t] ∧ t.kind = k ∧ t.lexeme = String.ofList (c :: lexeme) := by
  intro s htext hqueue
  have hend : rest.takeWhile k.continues = [] ∧ rest.dropWhile k.continues = rest := by
    cases rest with
    | nil => exact ⟨rfl, rfl⟩
    | cons x rest => simp [hrest x rfl]
  have hread : readToken s.text s.location =
      ⟨⟨k, String.ofList (c :: lexeme), s.location⟩, rest,
        s.location.right (c :: lexeme).length⟩ := by
    rw [readToken, htext, skipBlanks_of_ofFirst (by rwa [hk])]
    simp only [hk, List.takeWhile_append_of_pos hlexeme, List.dropWhile_append_of_pos hlexeme,
      hend.1, hend.2, List.append_nil]
  have hcurrent : s.current = ⟨k, String.ofList (c :: lexeme), s.location⟩ := by
    simp only [Scanner.current, Scanner.next, hqueue, Scanner.read, hread]
  have hkind : s.current.kind ≠ .endOfInput := by
    rw [hcurrent, ← hk]
    exact Scanner.ofFirst_ne_endOfInput c
  refine ⟨[s.current], s.advance, Scanner.ahead_of_ne hkind, ⟨_, rfl, ?_, ?_⟩, ?_, ?_⟩
  · rw [hcurrent]
  · rw [hcurrent]
  · simp only [Scanner.advance, Scanner.next, hqueue, Scanner.read, hread]
  · simp only [Scanner.advance, Scanner.next, hqueue, Scanner.read]

theorem scans_sign {c : Char} {k : TokenKind} (rest : List Char) (hk : TokenKind.ofFirst c = k)
    (hdefined : k ≠ .undefined) (hsingle : ∀ x, k.continues x = false) :
    Scans (c :: rest) rest fun ts => ∃ t, ts = [t] ∧ t.kind = k := by
  have htoken := scans_token hk hdefined (List.forall_mem_nil _) fun x (_ : x ∈ rest.head?) =>
    hsingle x
  refine htoken.mono ?_
  rintro _ ⟨t, rfl, hkind, _⟩
  exact ⟨t, rfl, hkind⟩

theorem startsIdentifier_of_isDigit {c : Char} (h : c.isDigit = true) :
    startsIdentifier c = false := by
  have hdigit := Char.isDigit_iff_toNat.1 h
  have hnine : '9'.toNat = 57 := rfl
  refine Bool.eq_false_iff.2 fun hstarts => ?_
  rcases Bool.or_eq_true_iff.1 hstarts with heq | halpha
  · rw [beq_iff_eq.1 heq] at hdigit
    exact absurd hdigit.2 (by decide)
  rcases Bool.or_eq_true_iff.1 halpha with hupper | hlower
  · have hle := UInt32.le_iff_toNat_le.1 (of_decide_eq_true hupper).1
    have hA : 'A'.val.toNat = 65 := rfl
    have hc : c.val.toNat = c.toNat := rfl
    omega
  · have hle := UInt32.le_iff_toNat_le.1 (of_decide_eq_true (Bool.and_eq_true_iff.1 hlower).1)
    have ha : 'a'.val.toNat = 97 := rfl
    have hc : c.val.toNat = c.toNat := rfl
    omega

theorem ofFirst_of_isDigit {c : Char} (h : c.isDigit = true) : TokenKind.ofFirst c = .integer := by
  unfold TokenKind.ofFirst
  split
  case h_11 => rw [if_neg (by simp [startsIdentifier_of_isDigit h]), if_pos h]
  all_goals cases h

theorem scans_integer (n : UInt32) (rest : List Char)
    (hrest : ∀ x ∈ rest.head?, x.isDigit = false) :
    Scans ((toString n.toNat).toList ++ rest) rest fun ts =>
      ∃ t, ts = [t] ∧ t.kind = .integer ∧ numeral t.lexeme = n.toNat := by
  have hdigit (x : Char) (hx : x ∈ Nat.toDigits 10 n.toNat) : x.isDigit = true :=
    Nat.isDigit_of_mem_toDigits (by decide) (by decide) hx
  obtain ⟨c, cs, hcs⟩ := List.exists_cons_of_ne_nil (Nat.toDigits_ne_nil (n := n.toNat) (b := 10))
  have hfirst : TokenKind.ofFirst c = .integer := ofFirst_of_isDigit (hdigit c (by simp [hcs]))
  rw [Nat.toString_eq_ofList_toDigits, String.toList_ofList, hcs]
  refine (scans_token hfirst (by simp) ?_ hrest).mono ?_
  · intro x hx
    exact hdigit x (by rw [hcs]; exact List.mem_cons_of_mem c hx)
  · rintro _ ⟨t, rfl, hkind, hlexeme⟩
    refine ⟨t, rfl, hkind, ?_⟩
    rw [numeral, hlexeme, String.toList_ofList, ← hcs]
    exact Nat.ofDigitChars_toDigits (by decide) (by decide)

/-- An ASCII letter or an underscore, then ASCII letters, digits, underscores and dots. -/
def IsIdentifier (label : String) : Prop :=
  ∃ c cs, label.toList = c :: cs ∧ (c = '_' ∨ c.isAlpha = true) ∧
    ∀ x ∈ cs, x = '_' ∨ x = '.' ∨ x.isAlphanum = true

theorem ofFirst_of_startsIdentifier {c : Char} (h : startsIdentifier c = true) :
    TokenKind.ofFirst c = .identifier := by
  unfold TokenKind.ofFirst
  split
  case h_11 => rw [if_pos h]
  all_goals cases h

theorem continuesIdentifier_of_isAlphanum {c : Char} (h : c.isAlphanum = true) :
    continuesIdentifier c = true := by
  simp only [Char.isAlphanum, Bool.or_eq_true] at h
  simp only [continuesIdentifier, startsIdentifier, Bool.or_eq_true]
  rcases h with h | h
  · exact .inl (.inl (.inr h))
  · exact .inl (.inr h)

theorem scans_identifier {label : String} (h : IsIdentifier label) {rest : List Char}
    (hrest : ∀ x ∈ rest.head?, continuesIdentifier x = false) :
    Scans (label.toList ++ rest) rest fun ts =>
      ∃ t, ts = [t] ∧ t.kind = .identifier ∧ t.lexeme = label := by
  obtain ⟨c, cs, hlabel, hc, hcs⟩ := h
  have hfirst : TokenKind.ofFirst c = .identifier :=
    ofFirst_of_startsIdentifier (by simpa [startsIdentifier] using hc)
  rw [hlabel]
  refine (scans_token hfirst (by simp) ?_ hrest).mono ?_
  · intro x hx
    rcases hcs x hx with rfl | rfl | halnum
    · decide
    · decide
    · exact continuesIdentifier_of_isAlphanum halnum
  · rintro _ ⟨t, rfl, hkind, hlexeme⟩
    refine ⟨t, rfl, hkind, ?_⟩
    rw [hlexeme, ← hlabel, String.ofList_toList]

theorem scans_upper (hi : Bound) (rest : List Char) (hrest : ∀ x ∈ rest.head?, x.isDigit = false) :
    Scans ((match hi with
        | none => ""
        | some m => toString m.toNat).toList ++ rest) rest (SpellsEnd · hi) := by
  cases hi with
  | none =>
    refine Scans.nothing.mono ?_
    rintro _ rfl
    exact .omitted
  | some m =>
    refine (scans_integer m rest hrest).mono ?_
    rintro _ ⟨t, rfl, hkind, hvalue⟩
    exact .integer hkind hvalue

theorem scans_suffix (q : Quantifier) (rest : List Char) :
    Scans (q.suffix.toList ++ rest) rest (SpellsQuantifier · q) := by
  obtain ⟨lo, hi, hle⟩ := q
  unfold Quantifier.suffix
  dsimp only
  split
  · rename_i h
    obtain ⟨rfl, rfl⟩ := h
    refine Scans.nothing.mono ?_
    rintro _ rfl
    exact .nothing
  split
  · rename_i h
    obtain ⟨rfl, rfl⟩ := h
    refine (scans_sign rest (c := '*') rfl (by decide) fun _ => rfl).mono ?_
    rintro _ ⟨t, rfl, hk⟩
    exact .star hk
  split
  · rename_i h
    obtain ⟨rfl, rfl⟩ := h
    refine (scans_sign rest (c := '+') rfl (by decide) fun _ => rfl).mono ?_
    rintro _ ⟨t, rfl, hk⟩
    exact .plus hk
  split
  · rename_i h
    obtain ⟨rfl, rfl⟩ := h
    refine (scans_sign rest (c := '?') rfl (by decide) fun _ => rfl).mono ?_
    rintro _ ⟨t, rfl, hk⟩
    exact .question hk
  · simp only [String.toList_append, List.append_assoc]
    have hclose := scans_sign (c := '\x7d') rest rfl (by decide) fun _ => rfl
    have hupper := (scans_upper hi ('\x7d' :: rest) (by rintro _ ⟨⟩; rfl)).trans hclose
    have hcolon := (scans_sign (c := ':') _ rfl (by decide) fun _ => rfl).trans hupper
    have hlower := (scans_integer lo (':' :: _) (by rintro _ ⟨⟩; rfl)).trans hcolon
    have hopen := (scans_sign (c := '\x7b') _ rfl (by decide) fun _ => rfl).trans hlower
    refine hopen.mono ?_
    rintro _ ⟨_, _, rfl, ⟨o, rfl, ho⟩, _, _, rfl, ⟨t, rfl, hk, hvalue⟩, _, _, rfl, ⟨m, rfl, hm⟩, his,
      _, rfl, hhis, c, rfl, hc⟩
    exact .range ho (.integer hk hvalue) hm hhis hc rfl rfl

theorem continues_head_suffix (q : Quantifier) {rest : List Char}
    (hrest : ∀ x ∈ rest.head?, continuesIdentifier x = false) :
    ∀ x ∈ (q.suffix.toList ++ rest).head?, continuesIdentifier x = false := by
  unfold Quantifier.suffix
  split
  · exact hrest
  split
  · rintro _ ⟨⟩; rfl
  split
  · rintro _ ⟨⟩; rfl
  split
  · rintro _ ⟨⟩; rfl
  · simp only [String.toList_append, List.append_assoc]
    rintro _ ⟨⟩
    rfl

/-! ## Sequences -/

theorem scans_item {item : Item String} (h : IsIdentifier item.label) (rest : List Char)
    (hrest : ∀ x ∈ rest.head?, continuesIdentifier x = false) :
    Scans ((item.render id).toList ++ rest) rest (SpellsItem · item) := by
  rw [Item.render, String.toList_append, List.append_assoc]
  have hlabel := scans_identifier h (continues_head_suffix item.quantifier hrest)
  refine (hlabel.trans (scans_suffix item.quantifier rest)).mono ?_
  rintro _ ⟨_, ts, rfl, ⟨t, rfl, hk, hlexeme⟩, hts⟩
  obtain ⟨label, q⟩ := item
  obtain rfl : t.lexeme = label := hlexeme
  exact .item hk hts

theorem scans_items {items : List (Item String)} (h : ∀ item ∈ items, IsIdentifier item.label)
    (rest : List Char) :
    Scans ((renderJoined (Item.render id) items).toList ++ ']' :: rest) (']' :: rest)
      (SpellsItems · items) := by
  induction items with
  | nil =>
    refine Scans.nothing.mono ?_
    rintro _ rfl
    exact .nil
  | cons item items ih =>
    obtain ⟨hitem, hitems⟩ := List.forall_mem_cons.1 h
    cases items with
    | nil =>
      have hjoined : renderJoined (Item.render id) [item] = item.render id :=
        String.intercalate_singleton
      rw [hjoined]
      refine (scans_item hitem _ (by rintro _ ⟨⟩; rfl)).mono ?_
      intro ts hts
      have hspells := SpellsItems.item hts .nil
      rwa [List.append_nil] at hspells
    | cons item' items =>
      have hjoined : renderJoined (Item.render id) (item :: item' :: items) =
          item.render id ++ ";" ++ renderJoined (Item.render id) (item' :: items) :=
        String.intercalate_cons_cons
      rw [hjoined, String.toList_append, String.toList_append, List.append_assoc, List.append_assoc]
      have hseparator := (scans_sign (c := ';') _ rfl (by decide) fun _ => rfl).trans (ih hitems)
      have hfirst := (scans_item hitem (';' :: _) (by rintro _ ⟨⟩; rfl)).trans hseparator
      refine hfirst.mono ?_
      rintro _ ⟨ts, _, rfl, hts, _, us, rfl, ⟨t, rfl, ht⟩, hus⟩
      exact .item hts (.separator (by rw [ht]; rfl) hus)

theorem scans_print {items : List (Item String)} (h : ∀ item ∈ items, IsIdentifier item.label) :
    Scans (print items).toList [] (SpellsSequence · items) := by
  rw [print, String.toList_append, String.toList_append, List.append_assoc]
  have hclose := scans_sign (c := ']') [] rfl (by decide) fun _ => rfl
  have hitems := (scans_items h []).trans hclose
  have hopen := (scans_sign (c := '[') _ rfl (by decide) fun _ => rfl).trans hitems
  refine hopen.mono ?_
  rintro _ ⟨_, _, rfl, ⟨o, rfl, ho⟩, ts, _, rfl, hts, c, rfl, hc⟩
  exact .bracketed ho hts hc

/-- What has been printed is read back as it was, without a report. -/
theorem parse_print {items : List (Item String)} (h : ∀ item ∈ items, IsIdentifier item.label)
    (d : Diagnostics) : parse (print items) d = (items, d) := by
  refine parse_of_spells ?_ d
  obtain ⟨ts, s, hahead, hspells, htext, hqueue⟩ :=
    scans_print h (.ofText (print items)) rfl rfl
  have hend : s.ahead = [] := by
    refine Scanner.ahead_of_end ?_
    simp only [Scanner.current, Scanner.next, hqueue, Scanner.read, readToken, htext, skipBlanks,
      Token.endOfInput]
  rw [hend, List.append_nil] at hahead
  have htokens : tokens (print items) = ts := hahead
  rw [htokens]
  exact hspells

/-- Bounds at both ends of their range, written in braces. -/
theorem parse_print_bounds :
    parse "[_a.1\x7b0:0\x7d;B\x7b3:3\x7d;c_\x7b2:\x7d;d\x7b0:4294967295\x7d]" .empty =
      ([⟨"_a.1", .exactly 0⟩, ⟨"B", .exactly 3⟩, ⟨"c_", .atLeast 2⟩, ⟨"d", .upTo 4294967295⟩],
        .empty) := by
  have hlabels : ∀ item ∈ [⟨"_a.1", .exactly 0⟩, ⟨"B", .exactly 3⟩, ⟨"c_", .atLeast 2⟩,
      (⟨"d", .upTo 4294967295⟩ : Item String)], IsIdentifier item.label := by
    simp only [List.forall_mem_cons, List.not_mem_nil, false_implies, implies_true, and_true]
    exact ⟨⟨'_', ['a', '.', '1'], rfl, .inl rfl, by simp⟩, ⟨'B', [], rfl, .inr rfl, by simp⟩,
      ⟨'c', ['_'], rfl, .inr rfl, by simp⟩, ⟨'d', [], rfl, .inr rfl, by simp⟩⟩
  have hprint : print [⟨"_a.1", .exactly 0⟩, ⟨"B", .exactly 3⟩, ⟨"c_", .atLeast 2⟩,
      (⟨"d", .upTo 4294967295⟩ : Item String)] =
        "[_a.1\x7b0:0\x7d;B\x7b3:3\x7d;c_\x7b2:\x7d;d\x7b0:4294967295\x7d]" := by
    decide +kernel
  have h := parse_print hlabels .empty
  rwa [hprint] at h

end SeqAlign.Text
