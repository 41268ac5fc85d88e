import SeqAlign.Proofs.Text.RoundTrip
import SeqAlign.Proofs.Text.Stops

/-!
# SeqAlign.Proofs.Text.Labels

Whatever has been read can be printed and read back.

* `Token.IsLabel`: an identifier token is a label that can be read. Every token of a text is so
  (`isLabel_of_mem_tokens`).
* `Parsing.label_of_mem_items`: the labels of the items that are read are lexemes of identifier
  tokens, also where the text is malformed.
* `parse_print_parse`: so the items that are read from any text at all are read back from their
  written form.
-/

namespace SeqAlign.Text

theorem startsIdentifier_of_ofFirst {c : Char} (h : TokenKind.ofFirst c = .identifier) :
    startsIdentifier c = true := by
  unfold TokenKind.ofFirst at h
  split at h
  case h_11 =>
    split at h
    · assumption
    · split at h <;> cases h
  all_goals cases h

theorem isAlphanum_of_continuesIdentifier {c : Char} (h : continuesIdentifier c = true) :
    c = '_' ∨ c = '.' ∨ c.isAlphanum = true := by
  simp only [continuesIdentifier, startsIdentifier, Bool.or_eq_true, beq_iff_eq] at h
  simp only [Char.isAlphanum, Bool.or_eq_true]
  rcases h with ((h | h) | h) | h
  · exact .inl h
  · exact .inr (.inr (.inl h))
  · exact .inr (.inr (.inr h))
  · exact .inr (.inl h)

def Token.IsLabel (t : Token) : Prop := t.kind = .identifier → IsIdentifier t.lexeme

theorem isLabel_readToken (text : List Char) (loc : Location) :
    (readToken text loc).token.IsLabel := by
  unfold readToken
  split
  · nofun
  · rename_i c cs _ _
    intro hk
    have hc : TokenKind.ofFirst c = .identifier := hk
    have hstarts := startsIdentifier_of_ofFirst hc
    simp only [startsIdentifier, Bool.or_eq_true, beq_iff_eq] at hstarts
    refine ⟨c, cs.takeWhile continuesIdentifier, ?_, hstarts, ?_⟩
    · simp only [hc, String.toList_ofList]
      rfl
    · intro x hx
      exact isAlphanum_of_continuesIdentifier (List.all_eq_true.1 List.all_takeWhile x hx)

theorem isLabel_of_mem_tokens {text : String} {t : Token} (h : t ∈ tokens text) : t.IsLabel :=
  Scanner.forall_mem_ahead (s := .ofText text) (fun cs loc _ => isLabel_readToken cs loc) nofun t h

namespace Parsing

theorem label_of_item {p : Parsing} {item : Item String} (h : p.item.1 = some item) :
    p.current.kind = .identifier ∧ p.current.lexeme = item.label := by
  simp only [Parsing.item, current_look, advance_look] at h
  split at h
  · rename_i hk
    refine ⟨hk, ?_⟩
    split at h
    · split at h
      · cases h
        rfl
      · cases h
    · cases h
      rfl
  · cases h

theorem label_of_mem_items {p : Parsing} {item : Item String} (h : item ∈ p.items.1) :
    ∃ t ∈ p.ahead, t.kind = .identifier ∧ t.lexeme = item.label := by
  -- the items need not be well formed
  fun_induction items p with
  | case1 => cases h
  | case2 p hend _ ih =>
    rw [advance_look] at h ih
    obtain ⟨t, ht, hlabel⟩ := ih h
    refine ⟨t, ?_, hlabel⟩
    rw [ahead_of_ne fun hk => hend (.inl hk)]
    exact List.mem_cons_of_mem _ ht
  | case3 p hend _ first rest ih =>
    have hne : p.current.kind ≠ .endOfInput := fun hk => hend (.inl hk)
    rcases List.mem_append.1 h with h | h
    · refine ⟨p.current, ?_, label_of_item (Option.mem_toList.1 h)⟩
      rw [ahead_of_ne hne]
      exact List.mem_cons_self
    · obtain ⟨t, ht, hlabel⟩ := ih h
      exact ⟨t, (ahead_suffix_item hne).subset ht, hlabel⟩

theorem label_of_mem_sequence {p : Parsing} {item : Item String} (h : item ∈ p.sequence.1) :
    ∃ t ∈ p.ahead, t.kind = .identifier ∧ t.lexeme = item.label := by
  by_cases ho : p.current.kind = .openBracket
  · rw [sequence_bracketed ho] at h
    obtain ⟨t, ht, hlabel⟩ := label_of_mem_items h
    refine ⟨t, ?_, hlabel⟩
    rw [ahead_of_ne (by rw [ho]; decide)]
    exact List.mem_cons_of_mem _ ht
  · rw [sequence_bare ho] at h
    obtain ⟨t, ht, hlabel⟩ := label_of_mem_items h
    exact ⟨t, by rwa [ahead_look] at ht, hlabel⟩

end Parsing

theorem isIdentifier_of_mem_parse {text : String} {d : Diagnostics} {item : Item String}
    (h : item ∈ (parse text d).1) : IsIdentifier item.label := by
  obtain ⟨t, ht, hkind, hlabel⟩ := Parsing.label_of_mem_sequence h
  rw [← hlabel]
  exact isLabel_of_mem_tokens ht hkind

/-- Where scanning leads to the end of a text, it has led past all its tokens. -/
theorem Scans.tokens {text : String} {Spelled : List Token → Prop}
    (h : Scans text.toList [] Spelled) : Spelled (tokens text) := by
  obtain ⟨ts, s, hahead, hspelled, htext, hqueue⟩ := h (.ofText text) rfl rfl
  have hend : s.ahead = [] := by
    refine Scanner.ahead_of_end ?_
    simp only [Scanner.current, Scanner.next, hqueue, Scanner.read, readToken, htext, skipBlanks,
      Token.endOfInput]
  rw [hend, List.append_nil] at hahead
  rw [← hahead] at hspelled
  exact hspelled

/-- Whatever items have been read from a text, malformed or not, they are read back from their
written form, and nothing is reported about that. -/
theorem parse_print_parse (text : String) (d d' : Diagnostics) :
    parse (print (parse text d).1) d' = ((parse text d).1, d') :=
  parse_of_spells (scans_print fun _ => isIdentifier_of_mem_parse).tokens d'

end SeqAlign.Text
