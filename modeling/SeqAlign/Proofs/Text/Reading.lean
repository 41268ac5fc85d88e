import SeqAlign.Proofs.Text.Grammar

/-!
# SeqAlign.Proofs.Text.Reading

The parser reads exactly the language of the notation.

* `Parsing.Answers`: what a part of an item yields is spelled by the tokens that it has taken, and
  where it yields nothing it has filed a report. `Parsing.Settles` is the same for the parts of a
  sequence, which always yield something.
* `Parsing.settles_sequence`: what is read is spelled, or something has been reported.
* `Parsing.sequence_of_spells`: what is spelled is read, without a report.
* `parse_iff`: a text is read without a report if and only if its tokens spell a sequence, and then
  that sequence is read.
-/

namespace SeqAlign.Text

namespace Parsing

variable {α : Type} {p q r : Parsing}

/-- Something that the tokens taken spell, or a report. -/
def Answers (Spells : List Token → α → Prop) (p : Parsing) : Option α × Parsing → Prop
  | (some a, q) => ∃ ts, Reads p ts q ∧ Spells ts a
  | (none, q) => Complains p q

theorem answers_bound (p : Parsing) : Answers SpellsEnd p p.bound := by
  simp only [bound, current_look, advance_look]
  split
  · exact ⟨[], .look p, .omitted⟩
  · exact ⟨[], .look p, .omitted⟩
  · rename_i hk
    split
    · rename_i n hn
      exact ⟨[p.current], .advance (by simp [hk]), .integer hk (readBound_eq_some.1 hn)⟩
    · exact complains_file p.advance _
  · exact complains_file p.look _

theorem answers_upperBound (lo : Bound) (p : Parsing) :
    Answers (SpellsUpper lo) p (p.upperBound lo) := by
  simp only [upperBound, current_look, advance_look]
  split
  · rename_i hk
    have hread : Reads p [p.current] p.advance := .advance (by simp [hk])
    have hbound := answers_bound p.advance
    split
    · rename_i hi q heq
      rw [heq] at hbound
      obtain ⟨ts, hts, hspells⟩ := hbound
      exact ⟨_, hread.trans hts, .own hk hspells⟩
    · rename_i q heq
      rw [heq] at hbound
      exact hread.complains hbound
  · split
    · rename_i hlo
      obtain ⟨n, hn⟩ := Option.isSome_iff_exists.1 hlo
      exact ⟨[], .look p, .same hn⟩
    · exact complains_file p.look _

theorem answers_closeBounds (opening first : Token) (lo hi : Bound) (p : Parsing) :
    Answers (SpellsClose lo hi) p (p.closeBounds opening first lo hi) := by
  simp only [closeBounds, current_look, advance_look]
  split
  · rename_i hk
    split
    · rename_i q hq
      obtain ⟨hmin, hmax⟩ := Quantifier.ofBounds_eq_ok.1 hq
      exact ⟨[p.current], .advance (by simp [hk]), .close hk hmin hmax⟩
    · exact complains_file p.advance _
  · exact complains_file p.look _

theorem answers_bounds (opening : Token) (p : Parsing) :
    Answers SpellsBraces p (p.bounds opening) := by
  have hlook := Reads.look p
  have hlower := answers_bound p.look
  unfold bounds
  dsimp only
  split
  · rename_i q heq
    rw [heq] at hlower
    exact hlook.complains hlower
  · rename_i lo q heq
    rw [heq] at hlower
    obtain ⟨los, hlos, hlo⟩ := hlower
    have hupper := answers_upperBound lo q
    split
    · rename_i r heq
      rw [heq] at hupper
      exact (hlook.trans hlos).complains hupper
    · rename_i hi r heq
      rw [heq] at hupper
      obtain ⟨his, hhis, hhi⟩ := hupper
      have hclose := answers_closeBounds opening p.look.current lo hi r
      match r.closeBounds opening p.look.current lo hi, hclose with
      | (none, u), hclose => exact ((hlook.trans hlos).trans hhis).complains hclose
      | (some q, u), ⟨cs, hcs, hclose⟩ =>
        exact ⟨los ++ (his ++ cs), hlook.trans (hlos.trans (hhis.trans hcs)),
          .braces hlo hhi hclose⟩

theorem answers_quantifier (p : Parsing) : Answers SpellsQuantifier p p.quantifier := by
  unfold quantifier
  split
  · rename_i hk
    exact ⟨[p.current], .advance (by simp [hk]), .star hk⟩
  · rename_i hk
    exact ⟨[p.current], .advance (by simp [hk]), .plus hk⟩
  · rename_i hk
    exact ⟨[p.current], .advance (by simp [hk]), .question hk⟩
  · rename_i hk
    have hread : Reads p [p.current] p.advance := .advance (by simp [hk])
    have hbounds := answers_bounds p.current p.advance
    match p.advance.bounds p.current, hbounds with
    | (none, r), hbounds => exact hread.complains hbounds
    | (some q, r), ⟨ts, hts, hspells⟩ => exact ⟨_, hread.trans hts, hspells.quantifier hk⟩
  · exact complains_file p.advance _

theorem answers_item (p : Parsing) : Answers SpellsItem p p.item := by
  simp only [item, current_look, advance_look]
  split
  · rename_i hk
    have hread : Reads p [p.current] p.advance.look :=
      (Reads.advance (by simp [hk])).trans (.look p.advance)
    split
    · have hquantifier := answers_quantifier p.advance.look
      split
      · rename_i q r heq
        rw [heq] at hquantifier
        obtain ⟨ts, hts, hspells⟩ := hquantifier
        exact ⟨_, hread.trans hts, .item hk hspells⟩
      · rename_i r heq
        rw [heq] at hquantifier
        exact hread.complains hquantifier
    · exact ⟨_, hread, .item hk .nothing⟩
  · exact complains_file p.advance _

/-- Tokens of this kind have been taken without a report, or a report has been filed. -/
def Settles (Spelled : List Token → Prop) (p q : Parsing) : Prop :=
  (∃ ts, Reads p ts q ∧ Spelled ts) ∨ Complains p q

theorem Settles.count_le {Spelled : List Token → Prop} (h : Settles Spelled p q) :
    p.diagnostics.count ≤ q.diagnostics.count := by
  rcases h with ⟨ts, hread, _⟩ | hcomplains
  · exact Nat.le_of_eq hread.count_eq.symm
  · exact Nat.le_of_lt hcomplains

theorem Settles.mono {Spelled Spelled' : List Token → Prop} (h : Settles Spelled p q)
    (himp : ∀ ts, Spelled ts → Spelled' ts) : Settles Spelled' p q :=
  h.imp_left fun ⟨ts, hread, hspelled⟩ => ⟨ts, hread, himp ts hspelled⟩

/-- One part after the other. -/
theorem Settles.trans {First Second : List Token → Prop} (h : Settles First p q)
    (h' : Settles Second q r) :
    Settles (fun ts => ∃ us vs, us ++ vs = ts ∧ First us ∧ Second vs) p r := by
  rcases h with ⟨us, hus, hfirst⟩ | hcomplains
  · rcases h' with ⟨vs, hvs, hsecond⟩ | hcomplains
    · exact .inl ⟨us ++ vs, hus.trans hvs, us, vs, rfl, hfirst, hsecond⟩
    · exact .inr (hus.complains hcomplains)
  · exact .inr (hcomplains.trans_le h'.count_le)

theorem settles_look (p : Parsing) : Settles (· = []) p p.look := .inl ⟨[], .look p, rfl⟩

theorem settles_advance (h : p.current.kind ≠ .endOfInput) :
    Settles (· = [p.current]) p p.advance := .inl ⟨_, .advance h, rfl⟩

theorem Answers.settles {Spells : List Token → α → Prop} {o : Option α × Parsing}
    (h : Answers Spells p o) : Settles (fun ts => ∃ a, o.1 = some a ∧ Spells ts a) p o.2 := by
  match o, h with
  | (none, q), h => exact .inr h
  | (some a, q), ⟨ts, hread, hspells⟩ => exact .inl ⟨ts, hread, a, rfl, hspells⟩

theorem settles_items (p : Parsing) : Settles (SpellsItems · p.items.1) p p.items.2 := by
  fun_induction items p with
  | case1 p h => exact .inl ⟨[], .look p, .nil⟩
  | case2 p h hsep ih =>
    rw [advance_look] at ih ⊢
    refine ((settles_advance fun hk => h (.inl hk)).trans ih).mono ?_
    rintro _ ⟨_, us, rfl, rfl, hus⟩
    exact .separator hsep hus
  | case3 p h hsep first rest ih =>
    have hitem : Settles (fun ts => ∃ a, first.1 = some a ∧ SpellsItem ts a) p first.2 :=
      (answers_item p).settles
    refine (hitem.trans ih).mono ?_
    rintro _ ⟨ts, us, rfl, ⟨item, hfirst, hts⟩, hus⟩
    rw [hfirst]
    exact .item hts hus

/-- Nothing is left, or what is left has been reported. -/
theorem settles_rejectRest (p : Parsing) : Settles (· = []) p p.rejectRest := by
  fun_induction rejectRest p with
  | case1 p h => exact .inl ⟨[], .look p, rfl⟩
  | case2 p h complaint ih => exact .inr ((complains_file p.look.advance _).trans_le ih.count_le)

theorem ahead_rejectRest (p : Parsing) : p.rejectRest.ahead = [] := by
  fun_induction rejectRest p with
  | case1 p h => rw [ahead_look, ahead_of_end h]
  | case2 p h complaint ih => exact ih

theorem settles_closeSequence (opening : Token) (p : Parsing) :
    Settles (fun ts => ∃ c, c.kind = .closeBracket ∧ ts = [c]) p (p.closeSequence opening) := by
  simp only [closeSequence, current_look, advance_look]
  split
  · rename_i hk
    exact .inl ⟨[p.current], .advance (by simp [hk]), p.current, hk, rfl⟩
  · exact .inr (complains_file p.look _)

theorem sequence_bracketed (h : p.current.kind = .openBracket) :
    p.sequence =
      (p.advance.items.1, (p.advance.items.2.closeSequence p.current).rejectRest) := by
  simp only [sequence, current_look, advance_look, h, if_true]

theorem sequence_bare (h : p.current.kind ≠ .openBracket) :
    p.sequence = (p.look.items.1, p.look.items.2.rejectRest) := by
  simp only [sequence, current_look, h, if_false]

theorem settles_sequence (p : Parsing) :
    Settles (SpellsSequence · p.sequence.1) p p.sequence.2 := by
  by_cases ho : p.current.kind = .openBracket
  · rw [sequence_bracketed ho]
    have hopen := settles_advance (p := p) (by simp [ho])
    have hclose := settles_closeSequence p.current p.advance.items.2
    refine ((hopen.trans ((settles_items p.advance).trans
      (hclose.trans (settles_rejectRest _)))).mono ?_)
    rintro _ ⟨_, _, rfl, rfl, us, _, rfl, hus, _, _, rfl, ⟨c, hc, rfl⟩, rfl⟩
    exact .bracketed ho hus hc
  · rw [sequence_bare ho]
    refine ((settles_look p).trans ((settles_items p.look).trans (settles_rejectRest _))).mono ?_
    rintro _ ⟨_, _, rfl, rfl, us, _, rfl, hus, rfl⟩
    rw [List.append_nil]
    exact .bare hus

theorem ahead_sequence (p : Parsing) : p.sequence.2.ahead = [] := by
  by_cases ho : p.current.kind = .openBracket
  · rw [sequence_bracketed ho]
    exact ahead_rejectRest _
  · rw [sequence_bare ho]
    exact ahead_rejectRest _

/-! ## What is spelled is read -/

variable {t u c : Token} {ts us : List Token}

theorem bound_of_spells {lo : Bound} (h : SpellsEnd ts lo) (hp : p.ahead = ts ++ u :: us)
    (hu : u.kind = .colon ∨ u.kind = .closeBrace) :
    ∃ q, p.bound = (some lo, q) ∧ Reads p ts q := by
  cases h with
  | omitted =>
    have hcurrent := current_of_cons hp
    refine ⟨p.look, ?_, .look p⟩
    rcases hu with hu | hu
    · simp only [bound, current_look, hcurrent, hu]
    · simp only [bound, current_look, hcurrent, hu]
  | @integer t n hk hn =>
    have hcurrent := current_of_cons hp
    have hread := Reads.of_cons hp
    refine ⟨p.advance, ?_, hread⟩
    simp only [bound, current_look, advance_look, hcurrent, hk, readBound_eq_some.2 hn]

theorem upperBound_of_spells {lo hi : Bound} (h : SpellsUpper lo ts hi)
    (hp : p.ahead = ts ++ c :: us) (hc : c.kind = .closeBrace) :
    ∃ q, p.upperBound lo = (some hi, q) ∧ Reads p ts q := by
  cases h with
  | same hlo =>
    have hcurrent := current_of_cons hp
    refine ⟨p.look, ?_, .look p⟩
    simp [upperBound, current_look, hcurrent, hc, hlo]
  | @own m ts hi hm hend =>
    have hcurrent := current_of_cons hp
    have hread := Reads.of_cons hp
    obtain ⟨q, hq, hts⟩ := bound_of_spells hend (hread.rest hp) (.inr hc)
    refine ⟨q, ?_, hread.trans hts⟩
    simp only [upperBound, current_look, advance_look, hcurrent, hm, hq, if_true]

theorem closeBounds_of_spells {lo hi : Bound} {q : Quantifier} (opening first : Token)
    (h : SpellsClose lo hi ts q) (hp : p.ahead = ts ++ us) :
    p.closeBounds opening first lo hi = (some q, p.advance) ∧ Reads p ts p.advance := by
  cases h with
  | close hc hmin hmax =>
    have hcurrent := current_of_cons hp
    refine ⟨?_, .of_cons hp⟩
    simp only [closeBounds, current_look, advance_look, hcurrent, hc, if_true,
      Quantifier.ofBounds_eq_ok.2 ⟨hmin, hmax⟩]

theorem bounds_of_spells {q : Quantifier} (opening : Token) (h : SpellsBraces ts q)
    (hp : p.ahead = ts ++ us) : ∃ r, p.bounds opening = (some q, r) ∧ Reads p ts r := by
  obtain @⟨los, his, cs, lo, hi, q, hlo, hhi, hclose⟩ := h
  obtain ⟨c, hc, rfl⟩ : ∃ c, c.kind = .closeBrace ∧ cs = [c] := by
    cases hclose with
    | close hc _ _ => exact ⟨_, hc, rfl⟩
  have hlook : p.look.ahead = los ++ (his ++ c :: us) := by
    rw [ahead_look, hp]
    simp
  obtain ⟨u, vs, hhead, hu⟩ := hhi.exists_head hc us
  obtain ⟨q₁, hlower, hlos⟩ := bound_of_spells hlo (hhead ▸ hlook) hu
  obtain ⟨q₂, hupper, hhis⟩ := upperBound_of_spells hhi (hlos.rest hlook) hc
  obtain ⟨hfinal, hcs⟩ := closeBounds_of_spells opening p.look.current hclose
    (hhis.rest (hlos.rest hlook))
  refine ⟨q₂.advance, ?_, (Reads.look p).trans (hlos.trans (hhis.trans hcs))⟩
  simp only [bounds, hlower, hupper, hfinal]

/-- A sign or an opening brace stands at the head of all that spells a quantifier, if anything
does. -/
theorem quantifier_of_spells {q : Quantifier} (h : SpellsQuantifier ts q) (hne : ts ≠ [])
    (hp : p.ahead = ts ++ us) : ∃ r, p.quantifier = (some q, r) ∧ Reads p ts r := by
  obtain ⟨t, ts, rfl⟩ := List.exists_cons_of_ne_nil hne
  have hcurrent := current_of_cons hp
  have hread := Reads.of_cons hp
  have hbraces (ho : t.kind = .openBrace) (hts : SpellsBraces ts q) :
      ∃ r, p.quantifier = (some q, r) ∧ Reads p (t :: ts) r := by
    obtain ⟨r, hr, hts⟩ := bounds_of_spells t hts (hread.rest hp)
    refine ⟨r, ?_, hread.trans hts⟩
    simp only [quantifier, hcurrent, ho, hr]
  cases h with
  | star hk => exact ⟨p.advance, by simp only [quantifier, hcurrent, hk], hread⟩
  | plus hk => exact ⟨p.advance, by simp only [quantifier, hcurrent, hk], hread⟩
  | question hk => exact ⟨p.advance, by simp only [quantifier, hcurrent, hk], hread⟩
  | exactly ho hk hn hc =>
    exact hbraces ho (.braces (.integer hk hn) (.same rfl) (.close hc rfl rfl))
  | range ho hlo hm hhi hc hmin hmax =>
    exact hbraces ho (.braces hlo (.own hm hhi) (.close hc hmin hmax))

theorem item_of_spells {item : Item String} (h : SpellsItem ts item) (hp : p.ahead = ts ++ us)
    (hus : ∀ u ∈ us.head?, u.kind.startsQuantifier = false) :
    ∃ q, p.item = (some item, q) ∧ Reads p ts q := by
  cases h with
  | @item t ts q hk hq =>
    have hcurrent := current_of_cons hp
    have hread := Reads.of_cons hp
    have hlook : p.advance.look.ahead = ts ++ us := by
      rw [ahead_look]
      exact hread.rest hp
    cases ts with
    | nil =>
      cases hq
      have hends : p.advance.look.current.kind.startsQuantifier = false := by
        cases us with
        | nil => rw [current_of_nil hlook]; rfl
        | cons u us =>
          rw [current_of_cons hlook]
          exact hus u rfl
      refine ⟨p.advance.look, ?_, hread.trans (.look p.advance)⟩
      simp only [Parsing.item, current_look, advance_look, hcurrent, hk, if_true] at hends ⊢
      simp only [hends, Bool.false_eq_true, if_false]
      rfl
    | cons u ts =>
      have hstarts : p.advance.look.current.kind.startsQuantifier = true := by
        rw [current_of_cons hlook]
        exact hq.starts
      obtain ⟨r, hr, hts⟩ := quantifier_of_spells hq (List.cons_ne_nil u ts) hlook
      refine ⟨r, ?_, hread.trans ((Reads.look p.advance).trans hts)⟩
      simp only [Parsing.item, current_look, advance_look, hcurrent, hk, if_true] at hstarts ⊢
      simp only [hstarts, hr, if_true]

/-- Items end before a closing bracket or the end of input. -/
theorem items_of_spells {items : List (Item String)} (h : SpellsItems ts items)
    (hp : p.ahead = ts ++ us) (hus : ∀ u ∈ us.head?, u.kind = .closeBracket) :
    ∃ q, p.items = (items, q) ∧ Reads p ts q := by
  induction h generalizing p with
  | nil =>
    have hend : p.current.kind = .endOfInput ∨ p.current.kind = .closeBracket := by
      cases us with
      | nil => exact .inl (current_of_nil hp)
      | cons u us =>
        rw [current_of_cons hp]
        exact .inr (hus u rfl)
    refine ⟨p.look, ?_, .look p⟩
    rw [Parsing.items, dif_pos hend]
  | @separator t ts items hsep _ ih =>
    have hcurrent := current_of_cons hp
    have hgoes : ¬(p.current.kind = .endOfInput ∨ p.current.kind = .closeBracket) := by
      rintro (hk | hk) <;> simp [← hcurrent, hk, TokenKind.isSeparator] at hsep
    have hread := Reads.of_cons hp
    obtain ⟨q, hq, hts⟩ := ih (hread.rest hp)
    refine ⟨q, ?_, hread.trans hts⟩
    rw [Parsing.items, dif_neg hgoes, if_pos (by rwa [hcurrent]), advance_look, hq]
  | @item ts vs item items hitem hitems ih =>
    rw [List.append_assoc] at hp
    obtain ⟨q, hq, hts⟩ := item_of_spells hitem hp (hitems.startsQuantifier_eq_false hus)
    obtain ⟨r, hr, hvs⟩ := ih (hts.rest hp)
    have hk : p.current.kind = .identifier := by
      cases hitem with
      | item hk _ =>
        rw [current_of_cons hp]
        exact hk
    refine ⟨r, ?_, hts.trans hvs⟩
    rw [Parsing.items, dif_neg (by simp [hk]), if_neg (by simp [hk, TokenKind.isSeparator]), hq]
    simp only [hr]
    rfl

theorem items_of_nil (h : p.ahead = []) : p.items = ([], p.look) := by
  rw [Parsing.items, dif_pos (.inl (current_of_nil h))]

theorem rejectRest_of_nil (h : p.ahead = []) : p.rejectRest = p.look := by
  rw [rejectRest, dif_pos (current_of_nil h)]

theorem sequence_of_spells {items : List (Item String)} (h : SpellsSequence p.ahead items) :
    ∃ q, p.sequence = (items, q) ∧ q.diagnostics = p.diagnostics := by
  generalize hp : p.ahead = ts at h
  cases h with
  | bare hitems =>
    have hbare : p.current.kind ≠ .openBracket := by
      cases ts with
      | nil => simp [current_of_nil hp]
      | cons t ts =>
        rw [current_of_cons hp]
        rcases hitems.starts with hk | hsep
        · simp [hk]
        · intro hk
          simp [hk, TokenKind.isSeparator] at hsep
    have hlook : p.look.ahead = ts ++ [] := by rw [ahead_look, hp, List.append_nil]
    obtain ⟨q, hq, hts⟩ := items_of_spells hitems hlook (by simp)
    refine ⟨q.look, ?_, hts.silent⟩
    rw [sequence_bare hbare, hq, rejectRest_of_nil (hts.rest hlook)]
  | @bracketed o c ts items ho hitems hc =>
    have hcurrent := current_of_cons hp
    have hrest := (Reads.of_cons hp).rest hp
    obtain ⟨q, hq, hts⟩ := items_of_spells hitems hrest (by simp [hc])
    have hclosing := hts.rest hrest
    have hck : q.current.kind = .closeBracket := by rw [current_of_cons hclosing, hc]
    have hclose : q.closeSequence p.current = q.advance := by
      simp only [closeSequence, current_look, advance_look, hck, if_true]
    have hend := (Reads.of_cons hclosing).rest hclosing
    refine ⟨q.advance.look, ?_, hts.silent⟩
    rw [sequence_bracketed (by rw [hcurrent, ho]), hq, hclose, rejectRest_of_nil hend]

end Parsing

/-- The tokens of a text before the end of input. -/
def tokens (text : String) : List Token := (scan text).takeWhile fun t => t.kind ≠ .endOfInput

theorem parse_of_spells {text : String} {items : List (Item String)}
    (h : SpellsSequence (tokens text) items) (d : Diagnostics) : parse text d = (items, d) := by
  obtain ⟨q, hq, hd⟩ := Parsing.sequence_of_spells (p := ⟨.ofText text, d⟩) h
  rw [parse, hq]
  exact congrArg (Prod.mk items) hd

theorem spells_of_silent {text : String} {d : Diagnostics} (h : (parse text d).2 = d) :
    SpellsSequence (tokens text) (parse text d).1 := by
  rcases Parsing.settles_sequence ⟨.ofText text, d⟩ with ⟨ts, hread, hspells⟩ | hcomplains
  · have hahead := hread.ahead
    rw [Parsing.ahead_sequence, List.append_nil] at hahead
    rw [← hahead] at hspells
    exact hspells
  · have hcount : d.count < (parse text d).2.count := hcomplains
    rw [h] at hcount
    exact absurd hcount (Nat.lt_irrefl _)

/-- A text is read without a report if and only if its tokens spell a sequence; and then it is this
sequence that is read. -/
theorem parse_iff (text : String) (d : Diagnostics) :
    ((parse text d).2 = d ↔ ∃ items, SpellsSequence (tokens text) items) ∧
      ∀ items, parse text d = (items, d) ↔ SpellsSequence (tokens text) items := by
  refine ⟨⟨fun h => ⟨_, spells_of_silent h⟩, ?_⟩, fun items => ⟨?_, fun h => parse_of_spells h d⟩⟩
  · rintro ⟨items, h⟩
    rw [parse_of_spells h d]
  · intro h
    have hsilent : (parse text d).2 = d := by rw [h]
    have hspells := spells_of_silent hsilent
    rwa [h] at hspells

end SeqAlign.Text
