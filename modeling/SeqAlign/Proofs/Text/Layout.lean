import Mathlib.Logic.Function.Iterate
import SeqAlign.Proofs.Text.Segments

/-!
# SeqAlign.Proofs.Text.Layout

Where the tokens of a text are.

* `lineBreaks`, `sinceBreak`: how many line breaks a text has, and how much of it is behind the last
  one.
* `Location.past`: the location behind a piece of text, in the steps in which it is reached. It is
  given by the line breaks and by what is behind the last one (`past_line`, `past_column`).
* `skipBlanks_eq`: what a token has in front of it are blanks and line breaks, and skipping them
  leads to the location behind them.
* `Lexed`: the lexemes that tokens have. A word is as long as the text lets it be, and all else is
  one byte.
* `readToken_takes`: what is read from a text is a gap and such a lexeme.
* `Layout`: a text as tokens at their locations with blanks and line breaks between them.
* `scan_layout`: a text has such a layout, and taking the next token again and again leads through it
  to the end of input.
-/

namespace SeqAlign.Text

/-- A carriage return with a line feed is one line break. -/
def lineBreaks : List Char → Nat
  | [] => 0
  | '\r' :: '\n' :: cs => lineBreaks cs + 1
  | c :: cs => lineBreaks cs + if breaksLine c then 1 else 0

/-- The number of bytes behind the last line break. -/
def sinceBreak (cs : List Char) : Nat := (cs.reverse.takeWhile fun c => !breaksLine c).length

/-- The location behind this text, if it begins at the given one. -/
def Location.past (loc : Location) : List Char → Location
  | [] => loc
  | '\r' :: '\n' :: cs => loc.nextLine.past cs
  | c :: cs => (if breaksLine c then loc.nextLine else loc.right 1).past cs

theorem lineBreaks_le (cs : List Char) : lineBreaks cs ≤ cs.length := by
  fun_induction lineBreaks cs with
  | case1 => simp
  | case2 cs ih =>
    simp only [List.length_cons]
    omega
  | case3 c cs _ ih =>
    simp only [List.length_cons]
    split <;> omega

theorem sinceBreak_le (cs : List Char) : sinceBreak cs ≤ cs.length := by
  have hprefix := List.takeWhile_prefix (l := cs.reverse) fun c => !breaksLine c
  have hle := hprefix.length_le
  rwa [List.length_reverse] at hle

theorem sinceBreak_cons (c : Char) (cs : List Char) :
    sinceBreak (c :: cs) =
      if cs.any breaksLine then sinceBreak cs
      else cs.length + if breaksLine c then 0 else 1 := by
  simp only [sinceBreak, List.reverse_cons]
  by_cases hbreak : cs.any breaksLine = true
  · obtain ⟨x, hx, hxbreak⟩ := List.any_eq_true.1 hbreak
    have hne : (cs.reverse.takeWhile fun x => !breaksLine x).length ≠ cs.reverse.length := by
      intro hlength
      have hall := (List.takeWhile_prefix _).eq_of_length hlength
      have hmem : x ∈ cs.reverse.takeWhile fun x => !breaksLine x := by
        rw [hall]
        exact List.mem_reverse.2 hx
      have hunbroken := List.all_eq_true.1 List.all_takeWhile x hmem
      simp [hxbreak] at hunbroken
    rw [if_pos hbreak, List.takeWhile_append, if_neg hne]
  · have hunbroken : ∀ x ∈ cs.reverse, (!breaksLine x) = true := by
      intro x hx
      simp only [List.any_eq_true, not_exists, not_and] at hbreak
      simpa using hbreak x (List.mem_reverse.1 hx)
    rw [if_neg hbreak, List.takeWhile_append_of_pos hunbroken, List.length_append,
      List.length_reverse]
    by_cases hc : breaksLine c <;> simp [hc]

theorem sinceBreak_of_unbroken {cs : List Char} (h : cs.any breaksLine = false) :
    sinceBreak cs = cs.length := by
  cases cs with
  | nil => rfl
  | cons c cs =>
    obtain ⟨hc, hcs⟩ := Bool.or_eq_false_iff.1 (List.any_cons ▸ h)
    simp [sinceBreak_cons, hc, hcs]

namespace Location

theorem right_right (loc : Location) (k n : Nat) : (loc.right k).right n = loc.right (k + n) := by
  simp only [right, UInt32.ofNat_add, UInt32.add_assoc]

theorem nextLine_line (loc : Location) (n : Nat) :
    loc.nextLine.line + UInt32.ofNat n = loc.line + UInt32.ofNat (n + 1) := by
  rw [nextLine, UInt32.ofNat_add, UInt32.add_assoc, UInt32.add_comm (UInt32.ofNat n)]
  rfl

theorem past_line (loc : Location) (cs : List Char) :
    (loc.past cs).line = loc.line + UInt32.ofNat (lineBreaks cs) := by
  fun_induction past loc cs with
  | case1 loc => simp [lineBreaks]
  | case2 loc cs ih => rw [ih, lineBreaks, nextLine_line]
  | case3 loc c cs hpair ih =>
    rw [ih, lineBreaks.eq_3 _ _ hpair]
    by_cases hbreak : breaksLine c
    · rw [if_pos hbreak, if_pos hbreak, nextLine_line]
    · rw [if_neg hbreak, if_neg hbreak]
      rfl

theorem past_column (loc : Location) (cs : List Char) :
    (loc.past cs).column =
      if cs.any breaksLine then UInt32.ofNat (1 + sinceBreak cs)
      else loc.column + UInt32.ofNat cs.length := by
  fun_induction past loc cs with
  | case1 loc => simp
  | case2 loc cs ih =>
    rw [ih, sinceBreak_cons, sinceBreak_cons]
    by_cases hbreak : cs.any breaksLine <;> simp [hbreak, breaksLine, nextLine, UInt32.ofNat_add]
  | case3 loc c cs _ ih =>
    rw [ih, sinceBreak_cons]
    by_cases hbreak : cs.any breaksLine
    · simp [hbreak]
    · by_cases hc : breaksLine c
      · simp [hbreak, hc, nextLine, UInt32.ofNat_add]
      · simp [hbreak, hc, right, UInt32.ofNat_add, UInt32.add_assoc, UInt32.add_comm 1]

theorem past_append (loc : Location) {xs ys : List Char}
    (h : xs.getLast? = some '\r' → ys.head? ≠ some '\n') :
    loc.past (xs ++ ys) = (loc.past xs).past ys := by
  fun_induction past loc xs with
  | case1 => rfl
  | case2 loc xs ih =>
    rw [List.cons_append, List.cons_append, past]
    cases xs with
    | nil => rfl
    | cons x xs => exact ih h
  | case3 loc c xs hpair ih =>
    cases xs with
    | nil =>
      rw [List.cons_append, past.eq_3]
      · rfl
      · rintro tail rfl htail
        rw [List.nil_append] at htail
        exact h rfl (congrArg List.head? htail)
    | cons x xs =>
      rw [List.cons_append, past.eq_3]
      · exact ih h
      · rintro tail rfl htail
        obtain ⟨rfl, _⟩ := List.cons.inj htail
        exact hpair xs rfl rfl

theorem past_of_unbroken (loc : Location) {cs : List Char}
    (h : ∀ c ∈ cs, breaksLine c = false) : loc.past cs = loc.right cs.length := by
  induction cs generalizing loc with
  | nil => simp [past, right]
  | cons c cs ih =>
    obtain ⟨hc, hcs⟩ := List.forall_mem_cons.1 h
    rw [past.eq_3, hc, if_neg Bool.false_ne_true, ih _ hcs, right_right, Nat.add_comm,
      List.length_cons]
    rintro _ rfl
    cases hc

/-- One more than what is in front of it, of lines and of bytes on its line. -/
structure Behind (loc : Location) (before : List Char) : Prop where
  line : loc.line.toNat = 1 + lineBreaks before
  column : loc.column.toNat = 1 + sinceBreak before

/-- Lines and columns are counted from 1, in 32 bits. -/
theorem past_origin (cs : List Char) :
    origin.past cs = ⟨.ofNat (1 + lineBreaks cs), .ofNat (1 + sinceBreak cs)⟩ := by
  have hline : (origin.past cs).line = UInt32.ofNat (1 + lineBreaks cs) := by
    rw [past_line, UInt32.ofNat_add]
    rfl
  have hcolumn : (origin.past cs).column = UInt32.ofNat (1 + sinceBreak cs) := by
    rw [past_column]
    by_cases hbreak : cs.any breaksLine = true
    · rw [if_pos hbreak]
    · rw [if_neg hbreak, sinceBreak_of_unbroken (Bool.eq_false_iff.2 hbreak), UInt32.ofNat_add]
      rfl
  rw [← hline, ← hcolumn]

theorem behind_of_lt {before : List Char} (hlines : 1 + lineBreaks before < UInt32.size)
    (hsince : 1 + sinceBreak before < UInt32.size) : (origin.past before).Behind before := by
  rw [past_origin]
  exact ⟨UInt32.toNat_ofNat_of_lt hlines, UInt32.toNat_ofNat_of_lt hsince⟩

theorem behind_past_origin {before : List Char} (h : before.length + 1 < UInt32.size) :
    (origin.past before).Behind before := by
  have hlines := lineBreaks_le before
  have hsince := sinceBreak_le before
  exact behind_of_lt (by omega) (by omega)

end Location

def IsGap (cs : List Char) : Prop := ∀ c ∈ cs, c ∈ [' ', '\t', '\r', '\n']

theorem isGap_nil : IsGap [] := List.forall_mem_nil _

theorem IsGap.cons {c : Char} {cs : List Char} (hc : c ∈ [' ', '\t', '\r', '\n'])
    (hcs : IsGap cs) : IsGap (c :: cs) :=
  List.forall_mem_cons.2 ⟨hc, hcs⟩

theorem mem_gap {c : Char} (h : breaksLine c = true ∨ isBlank c = true) :
    c ∈ [' ', '\t', '\r', '\n'] := by
  simp only [breaksLine, isBlank, Bool.or_eq_true, beq_iff_eq] at h
  rcases h with (rfl | rfl) | rfl | rfl <;> simp

/-- The text begins with what is skipped, and what is left does not go on with it. -/
theorem skipBlanks_eq (text : List Char) (loc : Location) :
    ∃ gap, IsGap gap ∧ text = gap ++ (skipBlanks text loc).1 ∧
      (skipBlanks text loc).2 = loc.past gap ∧
      ∀ c ∈ (skipBlanks text loc).1.head?, breaksLine c = false ∧ isBlank c = false := by
  fun_induction skipBlanks text loc with
  | case1 loc => exact ⟨[], isGap_nil, rfl, rfl, by simp⟩
  | case2 cs loc ih =>
    obtain ⟨gap, hgap, htext, hloc, hstop⟩ := ih
    refine ⟨'\r' :: '\n' :: gap, .cons (by simp) (.cons (by simp) hgap), ?_, hloc, hstop⟩
    rw [List.cons_append, List.cons_append, ← htext]
  | case3 c cs loc hpair hbreak ih =>
    obtain ⟨gap, hgap, htext, hloc, hstop⟩ := ih
    refine ⟨c :: gap, .cons (mem_gap (.inl hbreak)) hgap, ?_, ?_, hstop⟩
    · rw [List.cons_append, ← htext]
    · rw [hloc, Location.past.eq_3, if_pos hbreak]
      rintro tail rfl rfl
      exact hpair _ rfl htext
  | case4 c cs loc hpair hbreak hblank ih =>
    obtain ⟨gap, hgap, htext, hloc, hstop⟩ := ih
    refine ⟨c :: gap, .cons (mem_gap (.inr hblank)) hgap, ?_, ?_, hstop⟩
    · rw [List.cons_append, ← htext]
    · rw [hloc, Location.past.eq_3, if_neg hbreak]
      rintro tail rfl rfl
      exact hbreak rfl
  | case5 c cs loc _ hbreak hblank =>
    refine ⟨[], isGap_nil, rfl, rfl, ?_⟩
    simp [hbreak, hblank]

/-- The lexemes of more than one byte. -/
inductive IsWord : TokenKind → List Char → Prop where
  | identifier {c : Char} {cs : List Char} : startsIdentifier c = true →
      (∀ x ∈ cs, continuesIdentifier x = true) → IsWord .identifier (c :: cs)
  | integer {c : Char} {cs : List Char} : c.isDigit = true →
      (∀ x ∈ cs, x.isDigit = true) → IsWord .integer (c :: cs)

def signs : List (Char × TokenKind) :=
  [('*', .star), ('+', .plus), ('?', .question), ('\x7b', .openBrace), ('\x7d', .closeBrace),
    ('[', .openBracket), (']', .closeBracket), (':', .colon), (';', .semicolon), (',', .comma)]

def StartsToken (c : Char) : Prop :=
  c ∈ signs.map Prod.fst ∨ startsIdentifier c = true ∨ c.isDigit = true

/-- The lexeme of a token of this kind, with this text behind it. -/
structure Lexed (kind : TokenKind) (lexeme rest : List Char) : Prop where
  kind_ne : kind ≠ .endOfInput
  word : kind = .identifier ∨ kind = .integer →
    IsWord kind lexeme ∧ ∀ w, w <+: lexeme ++ rest → IsWord kind w → w.length ≤ lexeme.length
  byte : kind ≠ .identifier → kind ≠ .integer →
    ∃ c, lexeme = [c] ∧ (kind = .undefined ∨ (c, kind) ∈ signs)
  undefined : kind = .undefined ↔ ∀ c ∈ lexeme.head?, ¬ StartsToken c

inductive Begins (c : Char) : TokenKind → Prop where
  | sign {kind : TokenKind} : (c, kind) ∈ signs → Begins c kind
  | letter : startsIdentifier c = true → Begins c .identifier
  | digit : c.isDigit = true → Begins c .integer
  | nothing : ¬ StartsToken c → Begins c .undefined

theorem begins_ofFirst (c : Char) : Begins c (TokenKind.ofFirst c) := by
  unfold TokenKind.ofFirst
  split
  case h_11 =>
    split
    · exact .letter ‹_›
    · split
      · exact .digit ‹_›
      · refine .nothing ?_
        simp_all [StartsToken, signs]
  all_goals exact .sign (by simp [signs])

theorem kind_of_mem_signs {x : Char × TokenKind} (h : x ∈ signs) :
    x.2 ≠ .identifier ∧ x.2 ≠ .integer ∧ x.2 ≠ .undefined ∧ x.2 ≠ .endOfInput := by
  revert x
  decide

theorem IsWord.continues {kind : TokenKind} {w : List Char} (h : IsWord kind w) :
    ∀ x ∈ w.tail, kind.continues x = true := by
  cases h with
  | identifier _ hcs => exact hcs
  | integer _ hcs => exact hcs

section Begins

variable {c : Char} {kind : TokenKind}

theorem Begins.ne_endOfInput (h : Begins c kind) : kind ≠ .endOfInput := by
  cases h with
  | sign hsign => exact (kind_of_mem_signs hsign).2.2.2
  | letter _ => simp
  | digit _ => simp
  | nothing _ => simp

theorem Begins.isWord (h : Begins c kind) (hkind : kind = .identifier ∨ kind = .integer)
    {cs : List Char} (hcs : ∀ x ∈ cs, kind.continues x = true) : IsWord kind (c :: cs) := by
  cases h with
  | sign hsign =>
    obtain ⟨hidentifier, hinteger, _⟩ := kind_of_mem_signs hsign
    exact absurd hkind (not_or.2 ⟨hidentifier, hinteger⟩)
  | letter hletter => exact .identifier hletter hcs
  | digit hdigit => exact .integer hdigit hcs
  | nothing _ => simp at hkind

theorem Begins.byte (h : Begins c kind) (hidentifier : kind ≠ .identifier)
    (hinteger : kind ≠ .integer) : kind = .undefined ∨ (c, kind) ∈ signs := by
  cases h with
  | sign hsign => exact .inr hsign
  | letter _ => exact absurd rfl hidentifier
  | digit _ => exact absurd rfl hinteger
  | nothing _ => exact .inl rfl

theorem Begins.eq_undefined_iff (h : Begins c kind) : kind = .undefined ↔ ¬ StartsToken c := by
  cases h with
  | sign hsign =>
    have hstarts : StartsToken c := .inl (List.mem_map_of_mem hsign)
    exact iff_of_false (kind_of_mem_signs hsign).2.2.1 (not_not.2 hstarts)
  | letter hletter => simp [StartsToken, hletter]
  | digit hdigit => simp [StartsToken, hdigit]
  | nothing hnone => exact iff_of_true rfl hnone

theorem takeWhile_never (cs : List Char) : cs.takeWhile (fun _ => false) = [] := by
  cases cs <;> rfl

theorem Begins.lexed (h : Begins c kind) (cs : List Char) :
    Lexed kind (c :: cs.takeWhile kind.continues) (cs.dropWhile kind.continues) where
  kind_ne := h.ne_endOfInput
  word hkind := by
    refine ⟨h.isWord hkind (List.all_eq_true.1 List.all_takeWhile), ?_⟩
    intro w hw hword
    rw [List.cons_append, List.takeWhile_append_dropWhile] at hw
    have hcontinues := hword.continues
    cases w with
    | nil => exact Nat.zero_le _
    | cons x w =>
      obtain ⟨tail, htail⟩ := hw
      rw [List.cons_append] at htail
      obtain ⟨rfl, rfl⟩ := List.cons.inj htail
      rw [List.tail_cons] at hcontinues
      rw [List.takeWhile_append_of_pos hcontinues]
      simp
  byte hidentifier hinteger := by
    have hnone : kind.continues = fun _ => false := by
      cases kind <;> first | rfl | contradiction
    rw [hnone, takeWhile_never]
    exact ⟨c, rfl, h.byte hidentifier hinteger⟩
  undefined := by
    rw [h.eq_undefined_iff]
    simp

end Begins

theorem breaksLine_of_continues {kind : TokenKind} {c : Char} (h : kind.continues c = true) :
    breaksLine c = false := by
  by_contra hbreak
  rw [Bool.not_eq_false, breaksLine, Bool.or_eq_true, beq_iff_eq, beq_iff_eq] at hbreak
  rcases hbreak with rfl | rfl <;> cases kind <;> cases h

/-- A token with this lexeme is read behind this gap. -/
structure Reading.Takes (r : Reading) (text : List Char) (loc : Location)
    (gap lexeme : List Char) : Prop where
  isGap : IsGap gap
  nonempty : lexeme ≠ []
  unbroken : ∀ x ∈ lexeme, breaksLine x = false
  text_eq : text = gap ++ lexeme ++ r.rest
  lexeme_eq : r.token.lexeme = String.ofList lexeme
  lexed : Lexed r.token.kind lexeme r.rest
  located : r.token.location = loc.past gap
  location_eq : r.location = (loc.past gap).past lexeme

/-- Either there is only a gap, or a token is read behind one. -/
theorem readToken_takes (text : List Char) (loc : Location) :
    (IsGap text ∧ skipBlanks text loc = ([], loc.past text)) ∨
      ∃ gap lexeme, (readToken text loc).Takes text loc gap lexeme := by
  obtain ⟨gap, hgap, htext, hpast, hstop⟩ := skipBlanks_eq text loc
  rcases hblanks : skipBlanks text loc with ⟨_ | ⟨c, cs⟩, loc'⟩
  · rw [hblanks] at htext hpast
    rw [List.append_nil] at htext
    obtain rfl : loc' = loc.past gap := hpast
    rw [htext]
    exact .inl ⟨hgap, rfl⟩
  · rw [hblanks] at htext hpast hstop
    obtain ⟨hc, _⟩ := hstop c rfl
    obtain rfl : loc' = loc.past gap := hpast
    have hunbroken : ∀ x ∈ c :: cs.takeWhile (TokenKind.ofFirst c).continues,
        breaksLine x = false :=
      List.forall_mem_cons.2 ⟨hc, fun x hx =>
        breaksLine_of_continues (List.all_eq_true.1 List.all_takeWhile x hx)⟩
    rw [readToken_of_cons hblanks]
    refine .inr ⟨gap, c :: cs.takeWhile (TokenKind.ofFirst c).continues, hgap,
      List.cons_ne_nil _ _, hunbroken, ?_, rfl, (begins_ofFirst c).lexed cs, rfl, ?_⟩
    · rw [List.append_assoc, List.cons_append, List.takeWhile_append_dropWhile]
      exact htext
    · rw [Location.past_of_unbroken _ hunbroken]

/-! ## Layouts -/

/-- This text, behind the other one, as tokens with gaps between them. -/
inductive Layout : List Char → List Char → List Token → Prop where
  | finished {before gap : List Char} : IsGap gap → Layout before gap []
  | token {before gap lexeme rest : List Char} {t : Token} {ts : List Token} :
      IsGap gap → t.lexeme = String.ofList lexeme → Lexed t.kind lexeme rest →
      t.location.Behind (before ++ gap) → Layout (before ++ gap ++ lexeme) rest ts →
      Layout before (gap ++ lexeme ++ rest) (t :: ts)

namespace Scanner

/-- The scanner has read the one text and has the other one to read. It has not stopped within a
line break. -/
structure Between (s : Scanner) (before rest : List Char) : Prop where
  queue : s.queue = []
  text : s.text = rest
  location : s.location = Location.origin.past before
  unbroken : ∀ c ∈ before.getLast?, breaksLine c = false

theorem location_advance_of_queue_eq_nil {s : Scanner} (h : s.queue = []) :
    s.advance.location = (readToken s.text s.location).location := by
  simp only [advance, next, h, read]

theorem Between.advance {s : Scanner} {before rest gap lexeme : List Char}
    (h : s.Between before rest)
    (hr : (readToken s.text s.location).Takes s.text s.location gap lexeme) :
    s.current.location = Location.origin.past (before ++ gap) ∧
      s.advance.Between (before ++ gap ++ lexeme) (readToken s.text s.location).rest := by
  have hgap : s.location.past gap = Location.origin.past (before ++ gap) := by
    rw [Location.past_append, h.location]
    intro hlast
    cases h.unbroken _ hlast
  have hlexeme : (s.location.past gap).past lexeme =
      Location.origin.past (before ++ gap ++ lexeme) := by
    rw [hgap, ← Location.past_append]
    intro _ hhead
    cases hr.unbroken _ (List.mem_of_head? hhead)
  obtain ⟨htext, hqueue⟩ := advance_of_queue_eq_nil h.queue
  refine ⟨?_, hqueue, htext, ?_, ?_⟩
  · rw [current_of_queue_eq_nil h.queue, hr.located, hgap]
  · rw [location_advance_of_queue_eq_nil h.queue, hr.location_eq, hlexeme]
  · intro x hx
    rw [List.getLast?_append, List.getLast?_eq_some_getLast hr.nonempty, Option.some_or] at hx
    obtain rfl := Option.mem_some_iff.1 hx
    exact hr.unbroken _ (List.getLast_mem hr.nonempty)

/-- Nothing but a gap is left in front of the end of input. -/
structure Ends (s : Scanner) (loc : Location) : Prop where
  queue : s.queue = []
  blank : skipBlanks s.text s.location = ([], loc)

theorem Ends.current {s : Scanner} {loc : Location} (h : s.Ends loc) :
    s.current = .endOfInput loc := by
  rw [current_of_queue_eq_nil h.queue, readToken_of_nil h.blank]

theorem Ends.advance {s : Scanner} {loc : Location} (h : s.Ends loc) : s.advance.Ends loc := by
  obtain ⟨text, loc', queue, err⟩ := s
  obtain ⟨rfl, hblank⟩ := h
  refine ⟨rfl, ?_⟩
  simp only [Scanner.advance, next, read, readToken_of_nil hblank]
  rfl

theorem Ends.iterate {s : Scanner} {loc : Location} (h : s.Ends loc) (k : Nat) :
    (Scanner.advance^[k] s).current = .endOfInput loc := by
  induction k generalizing s with
  | zero => exact h.current
  | succ k ih =>
    rw [Function.iterate_succ_apply]
    exact ih h.advance

theorem Between.past {s : Scanner} {before rest : List Char} (h : s.Between before rest) :
    s.location.past s.text = .past .origin (before ++ rest) := by
  rw [h.location, h.text, Location.past_append]
  intro hlast
  cases h.unbroken _ hlast

theorem Between.layout {s : Scanner} {before rest : List Char} (h : s.Between before rest)
    (hlength : before.length + rest.length < UInt32.size) :
    ∃ ts, Layout before rest ts ∧
      s.drain.1 = ts ++ [.endOfInput (.past .origin (before ++ rest))] ∧
      ∀ k, (Scanner.advance^[k] s).current =
        ts[k]?.getD (.endOfInput (.past .origin (before ++ rest))) := by
  -- by induction on the text that is left
  induction hn : rest.length using Nat.strongRecOn generalizing s before rest with
  | ind n ih =>
    have hcurrent := current_of_queue_eq_nil h.queue
    rcases readToken_takes s.text s.location with ⟨hgap, hblank⟩ | ⟨gap, lexeme, hr⟩
    · have hends : s.Ends (.past .origin (before ++ rest)) := ⟨h.queue, h.past ▸ hblank⟩
      rw [h.text] at hgap
      refine ⟨[], .finished hgap, ?_, fun k => hends.iterate k⟩
      rw [drain, dif_pos (by rw [hends.current]; rfl), hends.current]
      rfl
    · obtain ⟨hlocated, hnext⟩ := h.advance hr
      have hpos : 0 < lexeme.length := List.length_pos_iff.2 hr.nonempty
      have hrest : rest = gap ++ lexeme ++ (readToken s.text s.location).rest :=
        h.text.symm.trans hr.text_eq
      have hwhole : before ++ gap ++ lexeme ++ (readToken s.text s.location).rest =
          before ++ rest := by
        rw [hrest]
        simp only [List.append_assoc]
      have hlexed := hr.lexed
      rw [← hcurrent] at hlexed
      have hlengths := congrArg List.length hrest
      simp only [List.length_append] at hlengths
      obtain ⟨ts, hlayout, hdrain, hiterate⟩ := ih _ (by omega) hnext
        (by simp only [List.length_append]; omega) rfl
      rw [hwhole] at hdrain hiterate
      refine ⟨s.current :: ts, ?_, ?_, ?_⟩
      · rw [hrest]
        refine .token hr.isGap ?_ hlexed ?_ hlayout
        · rw [hcurrent, hr.lexeme_eq]
        · rw [hlocated]
          exact Location.behind_past_origin (by rw [List.length_append]; omega)
      · rw [drain, dif_neg hlexed.kind_ne]
        exact congrArg (s.current :: ·) hdrain
      · intro k
        cases k with
        | zero => rfl
        | succ k =>
          rw [Function.iterate_succ_apply, hiterate k]
          rfl

end Scanner

/-- A text of less than 32 bits of length is tokens with gaps between them, each token where its
location says. These are the tokens that are taken one after the other, and behind them there is the
end of input, however often the next token is taken. Its location is that behind the whole text. -/
theorem scan_layout (text : String) (h : text.length < UInt32.size) :
    ∃ ts loc, Layout [] text.toList ts ∧ scan text = ts ++ [.endOfInput loc] ∧
      (∀ k, (Scanner.advance^[k] (.ofText text)).current = ts[k]?.getD (.endOfInput loc)) ∧
      loc = ⟨.ofNat (1 + lineBreaks text.toList), .ofNat (1 + sinceBreak text.toList)⟩ ∧
      (text.length + 1 < UInt32.size → loc.Behind text.toList) := by
  have hstart : (Scanner.ofText text).Between [] text.toList := ⟨rfl, rfl, rfl, nofun⟩
  have hlength : ([] : List Char).length + text.toList.length < UInt32.size := by
    rwa [List.length_nil, Nat.zero_add, String.length_toList]
  obtain ⟨ts, hlayout, hscan, hiterate⟩ := hstart.layout hlength
  rw [List.nil_append] at hscan hiterate
  refine ⟨ts, _, hlayout, hscan, hiterate, Location.past_origin _, fun hshort => ?_⟩
  exact Location.behind_past_origin (by rwa [String.length_toList])

/-- The third token of this text is the fourth byte of the second line. -/
theorem scan_layout_two_lines :
    "ab\r\n  $cd".length < UInt32.size ∧
      ∃ ts loc, Layout [] "ab\r\n  $cd".toList ts ∧ scan "ab\r\n  $cd" = ts ++ [.endOfInput loc] ∧
        ts[2]?.getD (.endOfInput loc) = ⟨.identifier, "cd", ⟨2, 4⟩⟩ ∧
        loc.Behind "ab\r\n  $cd".toList := by
  have hlength : "ab\r\n  $cd".length < UInt32.size := by decide
  obtain ⟨ts, loc, hlayout, hscan, hiterate, _, hbehind⟩ := scan_layout "ab\r\n  $cd" hlength
  refine ⟨hlength, ts, loc, hlayout, hscan, ?_, hbehind (by decide)⟩
  rw [← hiterate 2]
  decide +kernel

end SeqAlign.Text
