import SeqAlign.Proofs.Text.Reading
import SeqAlign.Proofs.Text.Segments
import SeqAlign.Proofs.Text.Stops

/-!
# SeqAlign.Proofs.Text.Recovery

Recovery from errors is local to the segment between two separators.

* `Parsing.Beside`: two parsers with the same tokens ahead, one of which has more to come after
  them. What comes is nothing or begins with a separator.
* `Beside.stands`: before the end the two have the same token; at the end the one of them has a
  separator.
* `beside_item` and its like: the parts of an item treat a separator as they treat the end of input.
  So they answer the same and leave the parsers beside each other.
* `Beside.items`: the parser with more to come reads the same items, and then it goes on with what
  comes.
* `parse_segments`: the items and the complaints of a text without brackets are those of its two
  segments.
-/

namespace SeqAlign.Text

/-- The codes of the reports. -/
def Diagnostics.codes (d : Diagnostics) : List String := d.reports.map fun r => r.complaint.code

theorem Diagnostics.codes_file (d : Diagnostics) (r : Report) :
    (d.file r).codes = d.codes ++ [r.complaint.code] := by
  rw [codes, reports_file, List.map_append]
  rfl

namespace Parsing

def codes (p : Parsing) : List String := p.diagnostics.codes

variable {α : Type} {more : List (TokenKind × String)} {filed : List String} {p q : Parsing}

theorem isSeparator_iff {k : TokenKind} :
    k.isSeparator = true ↔ k = .semicolon ∨ k = .comma := by
  cases k <;> simp [TokenKind.isSeparator]

theorem stopsItem_of_isSeparator (k : TokenKind) (h : k.isSeparator = true) :
    k.stopsItem = true := by
  cases k <;> simp [TokenKind.isSeparator, TokenKind.stopsItem] at *

/-- The one parser has the tokens of the other ahead and more after them, and it has filed other
reports before. -/
structure Beside (more : List (TokenKind × String)) (filed : List String) (p q : Parsing) :
    Prop where
  ahead : p.ahead.map Token.spelling = q.ahead.map Token.spelling ++ more
  codes : p.codes = filed ++ q.codes

/-- The same answer, and beside each other again. -/
inductive Alike (more : List (TokenKind × String)) (filed : List String) :
    Option α × Parsing → Option α × Parsing → Prop where
  | mk {p q : Parsing} (answer : Option α) (beside : Beside more filed p q) :
      Alike more filed (answer, p) (answer, q)

theorem Alike.exists_eq {o o' : Option α × Parsing} (h : Alike more filed o o') :
    ∃ answer p q, o = (answer, p) ∧ o' = (answer, q) ∧ Beside more filed p q := by
  cases h with
  | mk answer beside => exact ⟨answer, _, _, rfl, rfl, beside⟩

theorem Alike.parts {o o' : Option α × Parsing} (h : Alike more filed o o') :
    o.1 = o'.1 ∧ Beside more filed o.2 o'.2 := by
  cases h with
  | mk answer beside => exact ⟨rfl, beside⟩

namespace Beside

theorem look (h : Beside more filed p q) : Beside more filed p.look q.look :=
  ⟨by rw [ahead_look, ahead_look, h.ahead], h.codes⟩

theorem file (h : Beside more filed p q) {r r' : Report} (hr : r.complaint = r'.complaint) :
    Beside more filed (p.file r) (q.file r') := by
  refine ⟨h.ahead, ?_⟩
  have hcodes : p.diagnostics.codes = filed ++ q.diagnostics.codes := h.codes
  simp only [Parsing.codes, Parsing.file, Diagnostics.codes_file, hcodes, hr, List.append_assoc]

theorem ahead_cons (h : Beside more filed p q) (hq : q.current.kind ≠ .endOfInput) :
    ∃ t ts, p.ahead = t :: ts ∧ t.spelling = q.current.spelling ∧
      ts.map Token.spelling = q.advance.ahead.map Token.spelling ++ more := by
  have hahead := h.ahead
  rw [ahead_of_ne hq, List.map_cons, List.cons_append] at hahead
  obtain ⟨t, ts, hp, ht, hts⟩ := List.map_eq_cons_iff.1 hahead
  exact ⟨t, ts, hp, ht, hts⟩

theorem spelling (h : Beside more filed p q) (hq : q.current.kind ≠ .endOfInput) :
    p.current.spelling = q.current.spelling := by
  obtain ⟨t, ts, hp, ht, _⟩ := h.ahead_cons hq
  rwa [current_of_cons hp]

theorem kind (h : Beside more filed p q) (hq : q.current.kind ≠ .endOfInput) :
    p.current.kind = q.current.kind :=
  congrArg Prod.fst (h.spelling hq)

theorem lexeme (h : Beside more filed p q) (hq : q.current.kind ≠ .endOfInput) :
    p.current.lexeme = q.current.lexeme :=
  congrArg Prod.snd (h.spelling hq)

theorem advance (h : Beside more filed p q) (hq : q.current.kind ≠ .endOfInput) :
    Beside more filed p.advance q.advance := by
  obtain ⟨t, ts, hp, _, hts⟩ := h.ahead_cons hq
  refine ⟨?_, h.codes⟩
  rw [(Reads.of_cons hp).rest hp, hts]

end Beside

section Parts

variable (hmore : ∀ w ∈ more.head?, w.1.isSeparator = true)

include hmore

/-- At the end of the one, the other has a separator or ends, too. -/
theorem Beside.stands (h : Beside more filed p q) :
    p.current.kind = q.current.kind ∨
      q.current.kind = .endOfInput ∧ p.current.kind.isSeparator = true := by
  by_cases hq : q.current.kind = .endOfInput
  · have hahead := h.ahead
    rw [Parsing.ahead_of_end hq, List.map_nil, List.nil_append] at hahead
    cases hp : p.ahead with
    | nil => exact .inl ((current_of_nil hp).trans hq.symm)
    | cons t ts =>
      refine .inr ⟨hq, ?_⟩
      rw [current_of_cons hp]
      refine hmore t.spelling ?_
      rw [← hahead, hp]
      rfl
  · exact .inl (h.kind hq)

theorem Beside.decides {β : Type} (h : Beside more filed p q) (f : TokenKind → β)
    (hf : ∀ k, k.isSeparator = true → f k = f .endOfInput) :
    f p.current.kind = f q.current.kind := by
  rcases h.stands hmore with hk | ⟨hq, hp⟩
  · rw [hk]
  · rw [hf _ hp, hq]

theorem Beside.kind_iff (h : Beside more filed p q) {k : TokenKind} (hk : k.stopsBounds = false) :
    p.current.kind = k ↔ q.current.kind = k := by
  rcases h.stands hmore with heq | ⟨hq, hp⟩
  · rw [heq]
  · constructor
    · intro hpk
      rw [hpk] at hp
      rw [stopsBounds_of_isSeparator hp] at hk
      cases hk
    · intro hqk
      exact absurd (hqk.symm.trans hq) (ne_endOfInput_of_stopsBounds hk)

theorem beside_toItemEnd (h : Beside more filed p q) :
    Beside more filed p.toItemEnd q.toItemEnd := by
  induction hn : q.weight using Nat.strongRecOn generalizing p q with
  | ind n ih =>
    have hstops := h.decides hmore TokenKind.stopsItem stopsItem_of_isSeparator
    rw [toItemEnd_eq p, toItemEnd_eq q, hstops]
    split
    · exact h.look
    · rename_i hq
      have hne := ne_endOfInput_of_stopsBounds (stopsBounds_of_stopsItem (Bool.eq_false_iff.2 hq))
      exact ih _ (hn ▸ weight_advance_lt hne) (h.advance hne) rfl

theorem beside_afterBounds (h : Beside more filed p q) :
    Beside more filed p.afterBounds q.afterBounds := by
  induction hn : q.weight using Nat.strongRecOn generalizing p q with
  | ind n ih =>
    have hclose : p.current.kind = .closeBrace ↔ q.current.kind = .closeBrace :=
      h.kind_iff hmore rfl
    have hstops := h.decides hmore TokenKind.stopsBounds fun _ => stopsBounds_of_isSeparator
    rw [afterBounds_eq p, afterBounds_eq q, hstops]
    simp only [hclose]
    split
    · rename_i hq
      exact h.advance (by simp [hq])
    split
    · exact h.look
    · rename_i hq
      have hne := ne_endOfInput_of_stopsBounds (Bool.eq_false_iff.2 hq)
      exact ih _ (hn ▸ weight_advance_lt hne) (h.advance hne) rfl

theorem beside_bound (h : Beside more filed p q) : Alike more filed p.bound q.bound := by
  have hmissing : Beside more filed (p.look.file (.about .expectedInteger p.current))
      (q.look.file (.about .expectedInteger q.current)) := h.look.file rfl
  simp only [bound, current_look, advance_look]
  rcases h.stands hmore with hk | ⟨hq, hp⟩
  · rw [hk]
    split
    · exact .mk _ h.look
    · exact .mk _ h.look
    · rename_i hq
      have hne : q.current.kind ≠ .endOfInput := by simp [hq]
      rw [h.lexeme hne]
      split
      · exact .mk _ (h.advance hne)
      · exact .mk _ ((h.advance hne).file rfl)
    · exact .mk _ hmissing
  · rcases isSeparator_iff.1 hp with hp | hp
    · simp only [hp, hq]
      exact .mk _ hmissing
    · simp only [hp, hq]
      exact .mk _ hmissing

theorem beside_upperBound (lo : Bound) (h : Beside more filed p q) :
    Alike more filed (p.upperBound lo) (q.upperBound lo) := by
  have hcolon : p.current.kind = .colon ↔ q.current.kind = .colon := h.kind_iff hmore rfl
  simp only [upperBound, current_look, advance_look, hcolon]
  split
  · rename_i hq
    have hbound := beside_bound hmore (h.advance (by simp [hq]))
    obtain ⟨answer, p', q', hp', hq', hbeside⟩ := hbound.exists_eq
    rw [hp', hq']
    cases answer with
    | some hi => exact .mk (some hi) hbeside
    | none => exact .mk none (beside_afterBounds hmore hbeside)
  split
  · exact .mk _ h.look
  · exact .mk _ (beside_afterBounds hmore (h.look.file rfl))

theorem beside_closeBounds (opening opening' first first' : Token) (lo hi : Bound)
    (h : Beside more filed p q) :
    Alike more filed (p.closeBounds opening first lo hi) (q.closeBounds opening' first' lo hi) := by
  have hclose : p.current.kind = .closeBrace ↔ q.current.kind = .closeBrace :=
    h.kind_iff hmore rfl
  simp only [closeBounds, current_look, advance_look, hclose]
  split
  · rename_i hq
    have hadvance := h.advance (by simp [hq])
    split
    · exact .mk _ hadvance
    · exact .mk _ (hadvance.file rfl)
  · exact .mk _ (beside_toItemEnd hmore (h.look.file rfl))

theorem beside_bounds (opening opening' : Token) (h : Beside more filed p q) :
    Alike more filed (p.bounds opening) (q.bounds opening') := by
  unfold bounds
  dsimp only
  obtain ⟨lower, p₁, q₁, hp₁, hq₁, hlower⟩ := (beside_bound hmore h.look).exists_eq
  rw [hp₁, hq₁]
  cases lower with
  | none => exact .mk none (beside_afterBounds hmore hlower)
  | some lo =>
    obtain ⟨upper, p₂, q₂, hp₂, hq₂, hupper⟩ := (beside_upperBound hmore lo hlower).exists_eq
    dsimp only
    rw [hp₂, hq₂]
    cases upper with
    | none => exact .mk none hupper
    | some hi => exact beside_closeBounds hmore _ _ _ _ lo hi hupper

theorem beside_quantifier (h : Beside more filed p q)
    (hq : q.current.kind.startsQuantifier = true) :
    Alike more filed p.quantifier q.quantifier := by
  have hne : q.current.kind ≠ .endOfInput := by
    intro hend
    rw [hend] at hq
    cases hq
  have hadvance := h.advance hne
  unfold quantifier
  rw [h.kind hne]
  split
  · exact .mk _ hadvance
  · exact .mk _ hadvance
  · exact .mk _ hadvance
  · exact beside_bounds hmore _ _ hadvance
  · exact .mk _ (hadvance.file rfl)

theorem beside_item (h : Beside more filed p q) (hne : q.current.kind ≠ .endOfInput) :
    Alike more filed p.item q.item := by
  have hadvance := h.advance hne
  simp only [item, current_look, advance_look, h.kind hne, h.lexeme hne, Token.isUndefined]
  split
  · have hstarts := hadvance.decides hmore TokenKind.startsQuantifier (by
      intro k hsep
      cases k <;> simp [TokenKind.isSeparator, TokenKind.startsQuantifier] at *)
    rw [hstarts]
    split
    · rename_i hq
      have hquantifier := beside_quantifier hmore hadvance.look (by rwa [current_look])
      obtain ⟨answer, p', q', hp', hq', hbeside⟩ := hquantifier.exists_eq
      rw [hp', hq']
      cases answer with
      | some _ => exact .mk _ hbeside
      | none => exact .mk none hbeside
    · exact .mk _ hadvance.look
  · exact .mk _ (beside_toItemEnd hmore (hadvance.file rfl))

/-! ## Segments -/

/-- The parser with more to come reads the items of the other and goes on with what comes. -/
theorem Beside.items (h : Beside more filed p q)
    (hclosing : ∀ t ∈ q.ahead, t.kind ≠ .closeBracket) :
    ∃ r : Parsing, p.items = (q.items.1 ++ r.items.1, r.items.2) ∧
      Beside more filed r q.items.2 := by
  fun_induction Parsing.items q generalizing p with
  | case1 q hend =>
    rcases hend with hend | hend
    · exact ⟨p, rfl, by rw [ahead_look, h.ahead], h.codes⟩
    · have hmem : q.current ∈ q.ahead := by
        rw [ahead_of_ne (by simp [hend])]
        exact List.mem_cons_self
      exact absurd hend (hclosing _ hmem)
  | case2 q hends hsep ih =>
    have hne : q.current.kind ≠ .endOfInput := fun hend => hends (.inl hend)
    rw [advance_look] at ih ⊢
    rw [ahead_of_ne hne] at hclosing
    obtain ⟨r, hr, hbeside⟩ := ih (h.advance hne) (List.forall_mem_cons.1 hclosing).2
    refine ⟨r, ?_, hbeside⟩
    rw [Parsing.items, h.kind hne, dif_neg hends, if_pos hsep, advance_look, hr]
  | case3 q hends hsep first rest =>
    rename_i ih
    have hne : q.current.kind ≠ .endOfInput := fun hend => hends (.inl hend)
    have hsuffix := ahead_suffix_item hne
    obtain ⟨hanswer, hitem⟩ := (beside_item hmore h hne).parts
    obtain ⟨r, hr, hbeside⟩ := ih hitem fun t ht => hclosing t (hsuffix.mem ht)
    refine ⟨r, ?_, hbeside⟩
    rw [Parsing.items, h.kind hne, dif_neg hends, if_neg hsep]
    dsimp only
    rw [hr, hanswer, List.append_assoc]

end Parts

theorem ahead_items (hclosing : ∀ t ∈ p.ahead, t.kind ≠ .closeBracket) : p.items.2.ahead = [] := by
  fun_induction items p with
  | case1 p hend =>
    rw [ahead_look]
    rcases hend with hend | hend
    · exact ahead_of_end hend
    · have hmem : p.current ∈ p.ahead := by
        rw [ahead_of_ne (by simp [hend])]
        exact List.mem_cons_self
      exact absurd hend (hclosing _ hmem)
  | case2 p hends hsep ih =>
    have hne : p.current.kind ≠ .endOfInput := fun hend => hends (.inl hend)
    rw [ahead_of_ne hne] at hclosing
    rw [advance_look] at ih ⊢
    exact ih (List.forall_mem_cons.1 hclosing).2
  | case3 p hends hsep first rest ih =>
    have hsuffix := ahead_suffix_item fun hend => hends (.inl hend)
    exact ih fun t ht => hclosing t (hsuffix.mem ht)

/-- Behind a segment and its separator, the items of the next segment are read. -/
theorem items_segments {q' : Parsing} {w : TokenKind × String} (hw : w.1.isSeparator = true)
    (h : Beside (w :: q'.ahead.map Token.spelling) filed p q) (hq' : q'.codes = [])
    (hclosing : ∀ t ∈ q.ahead, t.kind ≠ .closeBracket)
    (hclosing' : ∀ t ∈ q'.ahead, t.kind ≠ .closeBracket) :
    ∃ r : Parsing, p.items = (q.items.1 ++ q'.items.1, r) ∧ r.ahead = [] ∧
      r.codes = filed ++ q.items.2.codes ++ q'.items.2.codes := by
  obtain ⟨r, hr, hahead, hcodes⟩ := h.items (by simpa using hw) hclosing
  rw [ahead_items hclosing, List.map_nil, List.nil_append] at hahead
  obtain ⟨t, ts, ht, htw, hts⟩ := List.map_eq_cons_iff.1 hahead
  have hcurrent : r.current.kind = w.1 := by rw [current_of_cons ht, ← htw]; rfl
  -- the separator is passed over
  have hgoes : r.items = r.advance.items := by
    rw [items, hcurrent, dif_neg, if_pos hw, advance_look]
    rcases isSeparator_iff.1 hw with hk | hk <;> simp [hk]
  have hnext : Beside [] r.codes r.advance q' := by
    refine ⟨?_, ?_⟩
    · rw [(Reads.of_cons ht).rest ht, hts, List.append_nil]
    · rw [hq', List.append_nil]
      rfl
  obtain ⟨u, hu, hahead', hcodes'⟩ := hnext.items (by simp) hclosing'
  rw [ahead_items hclosing', List.map_nil, List.append_nil] at hahead'
  have hnil : u.ahead = [] := List.map_eq_nil_iff.1 hahead'
  refine ⟨u.look, ?_, by rw [ahead_look, hnil], ?_⟩
  · rw [hr, hgoes, hu, items_of_nil hnil, List.append_nil]
  · rw [← hcodes]
    exact hcodes'

end Parsing

/-- No opening and no closing bracket. -/
def Unbracketed (text : String) : Prop := ∀ c ∈ text.toList, c ≠ '[' ∧ c ≠ ']'

instance : DecidablePred Unbracketed := fun text => List.decidableBAll _ text.toList

theorem bracket_of_ofFirst {c : Char} :
    (TokenKind.ofFirst c = .openBracket → c = '[') ∧
      (TokenKind.ofFirst c = .closeBracket → c = ']') := by
  unfold TokenKind.ofFirst
  split
  case h_11 =>
    split
    · simp
    · split <;> simp
  all_goals simp

theorem kind_ne_bracket_of_mem_ahead {text : String} (h : Unbracketed text) {d : Diagnostics} :
    ∀ t ∈ (Parsing.mk (.ofText text) d).ahead, t.kind ≠ .openBracket ∧ t.kind ≠ .closeBracket := by
  refine Scanner.forall_mem_ahead (s := .ofText text) ?_ nofun
  intro cs loc hcs
  have hblanks := skipBlanks_suffix cs loc
  unfold readToken
  split
  · simp [Token.endOfInput]
  · rename_i c cs' _ heq
    rw [heq] at hblanks
    obtain ⟨hopen, hclose⟩ := h c ((hblanks.trans hcs).mem List.mem_cons_self)
    obtain ⟨hopen', hclose'⟩ := bracket_of_ofFirst (c := c)
    exact ⟨fun hk => hopen (hopen' hk), fun hk => hclose (hclose' hk)⟩

/-- Without brackets a sequence is the items up to the end of input. -/
theorem parse_of_unbracketed {text : String} (h : Unbracketed text) (d : Diagnostics)
    {items : List (Item String)} {p : Parsing}
    (hitems : (Parsing.mk (.ofText text) d).look.items = (items, p)) (hp : p.ahead = []) :
    parse text d = (items, p.diagnostics) := by
  have hbare : (Parsing.mk (.ofText text) d).current.kind ≠ .openBracket := by
    intro hk
    have hne : (Parsing.mk (.ofText text) d).current.kind ≠ .endOfInput := by simp [hk]
    have hmem : (Parsing.mk (.ofText text) d).current ∈ (Parsing.mk (.ofText text) d).ahead := by
      rw [Parsing.ahead_of_ne hne]
      exact List.mem_cons_self
    exact (kind_ne_bracket_of_mem_ahead h _ hmem).1 hk
  rw [parse, Parsing.sequence_bare hbare, hitems, Parsing.rejectRest_of_nil hp]
  rfl

theorem kind_ne_closeBracket {text : String} (h : Unbracketed text) (d : Diagnostics) :
    ∀ t ∈ (Parsing.mk (.ofText text) d).look.ahead, t.kind ≠ .closeBracket := by
  intro t ht
  rw [Parsing.ahead_look] at ht
  exact (kind_ne_bracket_of_mem_ahead h t ht).2

theorem parse_eq_items {text : String} (h : Unbracketed text) (d : Diagnostics) :
    parse text d = ((Parsing.mk (.ofText text) d).look.items.1,
      (Parsing.mk (.ofText text) d).look.items.2.diagnostics) :=
  parse_of_unbracketed h d rfl (Parsing.ahead_items (kind_ne_closeBracket h d))

theorem unbracketed_append {c : Char} (hc : Separates c) {u v : String} (hu : Unbracketed u)
    (hv : Unbracketed v) : Unbracketed (u ++ String.singleton c ++ v) := by
  intro x hx
  simp only [String.toList_append, String.toList_singleton, List.mem_append,
    List.mem_singleton] at hx
  rcases hx with (hx | rfl) | hx
  · exact hu x hx
  · rcases hc with rfl | rfl <;> decide
  · exact hv x hx

theorem beside_append {c : Char} (hc : Separates c) (u v : String) (d : Diagnostics) :
    Parsing.Beside
      ((TokenKind.ofFirst c, String.singleton c) ::
        (Parsing.mk (.ofText v) .empty).ahead.map Token.spelling) d.codes
      ⟨.ofText (u ++ String.singleton c ++ v), d⟩ ⟨.ofText u, .empty⟩ := by
  have htext : (u ++ String.singleton c ++ v).toList = u.toList ++ c :: v.toList := by
    simp
  refine ⟨?_, (List.append_nil _).symm⟩
  have happend := spellings_append hc u.toList v.toList
  rw [← htext] at happend
  exact happend

/-- The items and the complaints of a text are those of its two segments. -/
theorem parse_segments {c : Char} (hc : Separates c) {u v : String} (hu : Unbracketed u)
    (hv : Unbracketed v) (d : Diagnostics) :
    (parse (u ++ String.singleton c ++ v) d).1 = (parse u .empty).1 ++ (parse v .empty).1 ∧
      (parse (u ++ String.singleton c ++ v) d).2.codes =
        d.codes ++ (parse u .empty).2.codes ++ (parse v .empty).2.codes := by
  have hbeside := (beside_append hc u v d).look
  rw [← Parsing.ahead_look] at hbeside
  obtain ⟨r, hr, hnil, hcodes⟩ := Parsing.items_segments (isSeparator_ofFirst hc) hbeside rfl
    (kind_ne_closeBracket hu .empty) (kind_ne_closeBracket hv .empty)
  rw [parse_of_unbracketed (unbracketed_append hc hu hv) d hr hnil, parse_eq_items hu,
    parse_eq_items hv]
  exact ⟨rfl, hcodes⟩

/-- Inverted bounds, braces that are left open on both sides of the separator, and a byte that is
not part of the notation. -/
theorem parse_segments_of_malformed :
    (parse "a\x7b2:1\x7db\x7b;\x7d%c\x7b3" .empty).1 =
        (parse "a\x7b2:1\x7db\x7b" .empty).1 ++ (parse "\x7d%c\x7b3" .empty).1 ∧
      (parse "a\x7b2:1\x7db\x7b;\x7d%c\x7b3" .empty).2.codes =
        ["inverted_bounds", "expected_integer", "expected_item", "expected_close_brace"] := by
  obtain ⟨hitems, hcodes⟩ := parse_segments (c := ';') (u := "a\x7b2:1\x7db\x7b")
    (v := "\x7d%c\x7b3") (by decide) (by decide) (by decide) .empty
  refine ⟨hitems, hcodes.trans ?_⟩
  decide +kernel

end SeqAlign.Text
