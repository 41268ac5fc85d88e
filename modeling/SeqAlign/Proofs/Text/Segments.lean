import SeqAlign.Proofs.Text.Tokens

/-!
# SeqAlign.Proofs.Text.Segments

The tokens of the segments between separators.

* `Token.spelling`: what the parser decides by. Where a token stands makes no difference to it.
* `readToken_append`: a token is read as it is without the separator and what follows it.
* `Scanner.spelling_ahead_eq`: a text is spelled alike wherever it stands.
* `spellings_append`: before and behind a separator a text has the tokens that its two segments have
  by themselves.
-/

namespace SeqAlign.Text

def Token.spelling (t : Token) : TokenKind × String := (t.kind, t.lexeme)

def Separates (c : Char) : Prop := c = ';' ∨ c = ','

instance : DecidablePred Separates := fun c => inferInstanceAs (Decidable (c = ';' ∨ c = ','))

theorem readToken_of_nil {text : List Char} {loc loc' : Location}
    (h : skipBlanks text loc = ([], loc')) : readToken text loc = ⟨.endOfInput loc', [], loc'⟩ := by
  rw [readToken, h]

theorem readToken_of_cons {text cs : List Char} {loc loc' : Location} {c : Char}
    (h : skipBlanks text loc = (c :: cs, loc')) :
    readToken text loc =
      ⟨⟨TokenKind.ofFirst c, String.ofList (c :: cs.takeWhile (TokenKind.ofFirst c).continues), loc'⟩,
        cs.dropWhile (TokenKind.ofFirst c).continues,
        loc'.right (c :: cs.takeWhile (TokenKind.ofFirst c).continues).length⟩ := by
  rw [readToken, h]

section Append

variable {c : Char} (hc : Separates c) (rest : List Char)

include hc

theorem isSeparator_ofFirst : (TokenKind.ofFirst c).isSeparator = true := by
  rcases hc with rfl | rfl <;> rfl

theorem continues_separator (k : TokenKind) : k.continues c = false := by
  rcases hc with rfl | rfl <;> cases k <;> rfl

theorem skipBlanks_separator (loc : Location) :
    skipBlanks (c :: rest) loc = (c :: rest, loc) := by
  rcases hc with rfl | rfl <;> simp [skipBlanks, breaksLine, isBlank]

theorem lineFeed_of_append {cs : List Char} {tail : List Char}
    (h : cs ++ c :: rest = '\n' :: tail) : ∃ tail', cs = '\n' :: tail' := by
  cases cs with
  | nil =>
    obtain ⟨rfl, _⟩ := List.cons.inj h
    rcases hc with hc | hc <;> cases hc
  | cons x cs =>
    obtain ⟨rfl, _⟩ := List.cons.inj h
    exact ⟨cs, rfl⟩

theorem skipBlanks_append (text : List Char) (loc : Location) :
    skipBlanks (text ++ c :: rest) loc =
      ((skipBlanks text loc).1 ++ c :: rest, (skipBlanks text loc).2) := by
  fun_induction skipBlanks text loc with
  | case1 loc => exact skipBlanks_separator hc rest loc
  | case2 cs loc ih =>
    rw [List.cons_append, List.cons_append, skipBlanks]
    exact ih
  | case3 x cs loc hx hbreak ih =>
    rw [List.cons_append, skipBlanks, if_pos hbreak]
    · exact ih
    · rintro _ rfl htail
      obtain ⟨tail, rfl⟩ := lineFeed_of_append hc rest htail
      exact hx tail rfl rfl
  | case4 x cs loc hx hbreak hblank ih =>
    rw [List.cons_append, skipBlanks, if_neg hbreak, if_pos hblank]
    · exact ih
    · rintro _ rfl
      cases hbreak rfl
  | case5 x cs loc hx hbreak hblank =>
    rw [List.cons_append, skipBlanks, if_neg hbreak, if_neg hblank]
    rintro _ rfl
    cases hbreak rfl

theorem takeWhile_append_separator (k : TokenKind) (cs : List Char) :
    (cs ++ c :: rest).takeWhile k.continues = cs.takeWhile k.continues ∧
      (cs ++ c :: rest).dropWhile k.continues = cs.dropWhile k.continues ++ c :: rest := by
  have hstop := continues_separator hc k
  induction cs with
  | nil => simp [hstop]
  | cons x cs ih => by_cases hx : k.continues x <;> simp [hx, ih]

/-- A token of the first segment is read as it is without what follows. -/
theorem readToken_append {text : List Char} {loc : Location}
    (h : (readToken text loc).token.kind ≠ .endOfInput) :
    readToken (text ++ c :: rest) loc =
      { readToken text loc with rest := (readToken text loc).rest ++ c :: rest } := by
  have happend := skipBlanks_append hc rest text loc
  rcases hblanks : skipBlanks text loc with ⟨_ | ⟨x, cs⟩, loc'⟩
  · rw [readToken_of_nil hblanks] at h
    exact absurd rfl h
  · obtain ⟨htake, hdrop⟩ := takeWhile_append_separator hc rest (TokenKind.ofFirst x) cs
    rw [hblanks, List.cons_append] at happend
    rw [readToken_of_cons hblanks, readToken_of_cons happend, htake, hdrop]

theorem readToken_separator {text : List Char} {loc : Location}
    (h : (readToken text loc).token.kind = .endOfInput) :
    (readToken (text ++ c :: rest) loc).token.spelling =
        (TokenKind.ofFirst c, String.singleton c) ∧
      (readToken (text ++ c :: rest) loc).rest = rest := by
  have happend := skipBlanks_append hc rest text loc
  rcases hblanks : skipBlanks text loc with ⟨_ | ⟨x, cs⟩, loc'⟩
  · rw [hblanks] at happend
    rw [readToken_of_cons happend]
    rcases hc with rfl | rfl <;> cases rest <;> exact ⟨rfl, rfl⟩
  · rw [readToken_of_cons hblanks] at h
    exact absurd h (Scanner.ofFirst_ne_endOfInput x)

end Append

theorem skipBlanks_fst (text : List Char) (loc loc' : Location) :
    (skipBlanks text loc).1 = (skipBlanks text loc').1 := by
  fun_induction skipBlanks text loc generalizing loc' with
  | case1 => rfl
  | case2 cs loc ih =>
    rw [skipBlanks]
    exact ih loc'.nextLine
  | case3 x cs loc hx hbreak ih =>
    rw [skipBlanks.eq_3 _ _ _ hx, if_pos hbreak]
    exact ih loc'.nextLine
  | case4 x cs loc hx hbreak hblank ih =>
    rw [skipBlanks.eq_3 _ _ _ hx, if_neg hbreak, if_pos hblank]
    exact ih (loc'.right 1)
  | case5 x cs loc hx hbreak hblank =>
    rw [skipBlanks.eq_3 _ _ _ hx, if_neg hbreak, if_neg hblank]

theorem readToken_elsewhere (text : List Char) (loc loc' : Location) :
    (readToken text loc).token.spelling = (readToken text loc').token.spelling ∧
      (readToken text loc).rest = (readToken text loc').rest := by
  have hfst := skipBlanks_fst text loc loc'
  rcases hblanks : skipBlanks text loc with ⟨_ | ⟨x, cs⟩, l⟩
  · rcases hblanks' : skipBlanks text loc' with ⟨_ | ⟨y, ds⟩, l'⟩
    · rw [readToken_of_nil hblanks, readToken_of_nil hblanks']
      exact ⟨rfl, rfl⟩
    · simp [hblanks, hblanks'] at hfst
  · rcases hblanks' : skipBlanks text loc' with ⟨_ | ⟨y, ds⟩, l'⟩
    · simp [hblanks, hblanks'] at hfst
    · obtain ⟨rfl, rfl⟩ : x = y ∧ cs = ds := by simpa [hblanks, hblanks'] using hfst
      rw [readToken_of_cons hblanks, readToken_of_cons hblanks']
      exact ⟨rfl, rfl⟩

namespace Scanner

theorem current_of_queue_eq_nil {s : Scanner} (h : s.queue = []) :
    s.current = (readToken s.text s.location).token := by
  simp only [current, next, h, read]

theorem advance_of_queue_eq_nil {s : Scanner} (h : s.queue = []) :
    s.advance.text = (readToken s.text s.location).rest ∧ s.advance.queue = [] := by
  simp only [advance, next, h, read, and_self]

/-- The tokens of a text are spelled alike wherever it stands. -/
theorem spelling_ahead_eq {s s' : Scanner} (htext : s.text = s'.text) (hs : s.queue = [])
    (hs' : s'.queue = []) :
    s.ahead.map Token.spelling = s'.ahead.map Token.spelling := by
  induction hn : s.weight using Nat.strongRecOn generalizing s s' with
  | ind n ih =>
    obtain ⟨hspelling, hrest⟩ := readToken_elsewhere s.text s.location s'.location
    rw [← current_of_queue_eq_nil hs, htext, ← current_of_queue_eq_nil hs'] at hspelling
    have hkind : s.current.kind = s'.current.kind := congrArg Prod.fst hspelling
    by_cases hend : s.current.kind = .endOfInput
    · rw [ahead_of_end hend, ahead_of_end (hkind ▸ hend)]
    · obtain ⟨htext₁, hqueue₁⟩ := advance_of_queue_eq_nil hs
      obtain ⟨htext₂, hqueue₂⟩ := advance_of_queue_eq_nil hs'
      have hnext : s.advance.text = s'.advance.text := by rw [htext₁, hrest, htext, htext₂]
      have htail := ih _ (hn ▸ weight_advance_lt hend) hnext hqueue₁ hqueue₂ rfl
      rw [ahead_of_ne hend, ahead_of_ne (fun h => hend (hkind.trans h)), List.map_cons,
        List.map_cons, hspelling, htail]

end Scanner

/-- The spellings of the tokens of a text. -/
def spellings (text : List Char) : List (TokenKind × String) :=
  (Scanner.mk text .origin [] false).ahead.map Token.spelling

theorem spellings_eq {s : Scanner} (h : s.queue = []) :
    s.ahead.map Token.spelling = spellings s.text :=
  Scanner.spelling_ahead_eq rfl h rfl

theorem spellings_of_end {text : List Char}
    (h : (readToken text .origin).token.kind = .endOfInput) : spellings text = [] := by
  rw [spellings, Scanner.ahead_of_end (s := ⟨text, .origin, [], false⟩) h]
  rfl

theorem spellings_of_ne {text : List Char}
    (h : (readToken text .origin).token.kind ≠ .endOfInput) :
    spellings text =
      (readToken text .origin).token.spelling :: spellings (readToken text .origin).rest := by
  rw [spellings, Scanner.ahead_of_ne (s := ⟨text, .origin, [], false⟩) h, List.map_cons,
    spellings_eq rfl]
  rfl

/-- Before and behind a separator are the tokens that the two segments have by themselves. -/
theorem spellings_append {c : Char} (hc : Separates c) (text rest : List Char) :
    spellings (text ++ c :: rest) =
      spellings text ++ (TokenKind.ofFirst c, String.singleton c) :: spellings rest := by
  induction hn : text.length using Nat.strongRecOn generalizing text with
  | ind n ih =>
    by_cases hend : (readToken text .origin).token.kind = .endOfInput
    · obtain ⟨hspelling, hrest⟩ := readToken_separator hc rest hend
      have hne : (readToken (text ++ c :: rest) .origin).token.kind ≠ .endOfInput := by
        have hkind : (readToken (text ++ c :: rest) .origin).token.kind = TokenKind.ofFirst c :=
          congrArg Prod.fst hspelling
        rw [hkind]
        exact Scanner.ofFirst_ne_endOfInput c
      rw [spellings_of_ne hne, hspelling, hrest, spellings_of_end hend]
      rfl
    · have happend := readToken_append hc rest hend
      have hlength := Scanner.length_rest_readToken text .origin
      rw [if_neg hend] at hlength
      have hrest := ih _ (by omega) (readToken text .origin).rest rfl
      rw [spellings_of_ne (by rwa [happend]), spellings_of_ne hend, happend, hrest]
      rfl

end SeqAlign.Text
