import SeqAlign.Proofs.Text.Tokens

/-!
# SeqAlign.Proofs.Text.Grammar

The language of the notation.

* `SpellsEnd`, `SpellsQuantifier`, `SpellsItem`, `SpellsItems`, `SpellsSequence`: which tokens spell
  which values.
* `SpellsBraces`: the same for bounds, in the order in which a parser meets their parts.
* `SpellsItems.starts`, `SpellsItems.startsQuantifier_eq_false`: what may stand first, and what may
  follow an item.
-/

namespace SeqAlign.Text

/-- One end of the bounds; it may be left out. -/
inductive SpellsEnd : List Token → Bound → Prop where
  | omitted : SpellsEnd [] none
  | integer {t : Token} {n : UInt32} :
      t.kind = .integer → numeral t.lexeme = n.toNat → SpellsEnd [t] (some n)

inductive SpellsQuantifier : List Token → Quantifier → Prop where
  | nothing : SpellsQuantifier [] .one
  | star {t : Token} : t.kind = .star → SpellsQuantifier [t] .zeroOrMore
  | plus {t : Token} : t.kind = .plus → SpellsQuantifier [t] .oneOrMore
  | question {t : Token} : t.kind = .question → SpellsQuantifier [t] .optional
  | exactly {o t c : Token} {n : UInt32} :
      o.kind = .openBrace → t.kind = .integer → numeral t.lexeme = n.toNat →
      c.kind = .closeBrace → SpellsQuantifier [o, t, c] (.exactly n)
  /-- A minimum that is left out is zero, and a maximum that is left out is unbounded. Ends that are
  the wrong way round spell nothing, because no quantifier has them. -/
  | range {o m c : Token} {los his : List Token} {lo hi : Bound} {q : Quantifier} :
      o.kind = .openBrace → SpellsEnd los lo → m.kind = .colon → SpellsEnd his hi →
      c.kind = .closeBrace → q.min = lo.getD 0 → q.max = hi →
      SpellsQuantifier (o :: (los ++ m :: (his ++ [c]))) q

inductive SpellsItem : List Token → Item String → Prop where
  | item {t : Token} {ts : List Token} {q : Quantifier} :
      t.kind = .identifier → SpellsQuantifier ts q → SpellsItem (t :: ts) ⟨t.lexeme, q⟩

/-- Items and separators, in any order. -/
inductive SpellsItems : List Token → List (Item String) → Prop where
  | nil : SpellsItems [] []
  | separator {t : Token} {ts : List Token} {items : List (Item String)} :
      t.kind.isSeparator = true → SpellsItems ts items → SpellsItems (t :: ts) items
  | item {ts us : List Token} {item : Item String} {items : List (Item String)} :
      SpellsItem ts item → SpellsItems us items → SpellsItems (ts ++ us) (item :: items)

inductive SpellsSequence : List Token → List (Item String) → Prop where
  | bare {ts : List Token} {items : List (Item String)} :
      SpellsItems ts items → SpellsSequence ts items
  | bracketed {o c : Token} {ts : List Token} {items : List (Item String)} :
      o.kind = .openBracket → SpellsItems ts items → c.kind = .closeBracket →
      SpellsSequence (o :: (ts ++ [c])) items

/-- The upper end after this lower end, which stands for both if it is alone. -/
inductive SpellsUpper (lo : Bound) : List Token → Bound → Prop where
  | same {n : UInt32} : lo = some n → SpellsUpper lo [] lo
  | own {m : Token} {ts : List Token} {hi : Bound} :
      m.kind = .colon → SpellsEnd ts hi → SpellsUpper lo (m :: ts) hi

inductive SpellsClose (lo hi : Bound) : List Token → Quantifier → Prop where
  | close {c : Token} {q : Quantifier} :
      c.kind = .closeBrace → q.min = lo.getD 0 → q.max = hi → SpellsClose lo hi [c] q

/-- What follows an opening brace. -/
inductive SpellsBraces : List Token → Quantifier → Prop where
  | braces {los his cs : List Token} {lo hi : Bound} {q : Quantifier} :
      SpellsEnd los lo → SpellsUpper lo his hi → SpellsClose lo hi cs q →
      SpellsBraces (los ++ (his ++ cs)) q

theorem SpellsBraces.quantifier {o : Token} {ts : List Token} {q : Quantifier}
    (ho : o.kind = .openBrace) (h : SpellsBraces ts q) : SpellsQuantifier (o :: ts) q := by
  cases h with
  | braces hlo hhi hclose =>
    cases hclose with
    | close hc hmin hmax =>
      cases hhi with
      | own hm hhi => exact .range ho hlo hm hhi hc hmin hmax
      | same hsome =>
        cases hlo with
        | omitted => cases hsome
        | @integer t n hkind hvalue =>
          obtain ⟨min, max, hle⟩ := q
          obtain rfl : min = n := hmin
          obtain rfl : max = some min := hmax
          exact .exactly ho hkind hvalue hc

theorem SpellsUpper.exists_head {lo hi : Bound} {c : Token} {ts : List Token}
    (h : SpellsUpper lo ts hi) (hc : c.kind = .closeBrace) (us : List Token) :
    ∃ u vs, ts ++ c :: us = u :: vs ∧ (u.kind = .colon ∨ u.kind = .closeBrace) := by
  cases h with
  | same _ => exact ⟨c, us, rfl, .inr hc⟩
  | own hm _ => exact ⟨_, _, rfl, .inl hm⟩

theorem SpellsQuantifier.starts {t : Token} {ts : List Token} {q : Quantifier}
    (h : SpellsQuantifier (t :: ts) q) : t.kind.startsQuantifier = true := by
  cases h with
  | star hk => rw [hk]; rfl
  | plus hk => rw [hk]; rfl
  | question hk => rw [hk]; rfl
  | exactly hk _ _ _ => rw [hk]; rfl
  | range hk _ _ _ _ _ _ => rw [hk]; rfl

theorem SpellsItems.starts {t : Token} {ts : List Token} {items : List (Item String)}
    (h : SpellsItems (t :: ts) items) : t.kind = .identifier ∨ t.kind.isSeparator = true := by
  generalize hall : t :: ts = us at h
  cases h with
  | nil => cases hall
  | separator hsep _ =>
    cases hall
    exact .inr hsep
  | item hitem _ =>
    cases hitem with
    | item hk _ =>
      cases hall
      exact .inl hk

theorem SpellsItems.startsQuantifier_eq_false {ts us : List Token} {items : List (Item String)}
    (h : SpellsItems ts items) (hus : ∀ u ∈ us.head?, u.kind = .closeBracket) :
    ∀ u ∈ (ts ++ us).head?, u.kind.startsQuantifier = false := by
  intro u hu
  cases ts with
  | nil => rw [hus u hu]; rfl
  | cons t ts =>
    obtain rfl := Option.some.inj hu
    rcases h.starts with hk | hsep
    · rw [hk]; rfl
    · revert hsep
      cases t.kind <;> simp [TokenKind.isSeparator, TokenKind.startsQuantifier]

end SeqAlign.Text
