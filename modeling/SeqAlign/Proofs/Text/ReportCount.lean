import Mathlib.Data.List.TakeWhile
import SeqAlign.Proofs.Text.Reading
import SeqAlign.Proofs.Text.Stops

/-!
# SeqAlign.Proofs.Text.ReportCount

How many reports a text costs.

* `Parsing.attempts`: what the attempts at an item come to. The items of a sequence are those that
  succeed (`fst_items_eq`), and each of the others costs one report (`count_items`).
* `behindSequence`: the tokens behind a sequence. Items go on to the first closing bracket
  (`ahead_items_eq`), so this is where they begin.
* `count_sequence`: every failed attempt, an opening bracket that is never closed and every token
  behind the sequence cost one report each.
* `reports_per_item`: the same for a text, with the cost of one item from any state of the parser,
  and of an item that stands alone.
-/

namespace SeqAlign.Text

def opensBracket (ts : List Token) : Bool := ts.head?.any fun t => t.kind = .openBracket

def fromClosing (ts : List Token) : List Token := ts.dropWhile fun t => t.kind ≠ .closeBracket

/-- The first closing bracket belongs to the sequence if it has been opened. -/
def behindSequence (ts : List Token) : List Token :=
  if opensBracket ts then (fromClosing ts).tail else fromClosing ts

/-- A bracket is opened and never closed. -/
def leavesOpen (ts : List Token) : Bool :=
  opensBracket ts && ts.all fun t => t.kind ≠ .closeBracket

theorem leavesOpen_eq {ts : List Token} (h : opensBracket ts = true) :
    leavesOpen ts = (fromClosing ts).isEmpty := by
  rw [leavesOpen, h, Bool.true_and, Bool.eq_iff_iff, List.isEmpty_iff, fromClosing,
    List.dropWhile_eq_nil_iff, List.all_eq_true]

theorem kind_of_fromClosing {ts us : List Token} {t : Token} (h : fromClosing ts = t :: us) :
    t.kind = .closeBracket := by
  have hhead := List.head?_dropWhile_not (fun t : Token => t.kind ≠ .closeBracket) ts
  rw [← fromClosing, h] at hhead
  simpa using hhead

namespace Parsing

variable {p : Parsing}

/-- What the attempts at an item come to, up to a closing bracket or the end of input. -/
def attempts (p : Parsing) : List (Option (Item String)) :=
  if _h : p.current.kind = .endOfInput ∨ p.current.kind = .closeBracket then []
  else if p.current.kind.isSeparator then attempts p.look.advance
  else p.item.1 :: attempts p.item.2
termination_by p.weight
decreasing_by
  · have hk : p.look.current.kind ≠ .endOfInput := by
      rw [current_look]
      exact fun hk => _h (.inl hk)
    exact Nat.lt_of_lt_of_le (weight_advance_lt hk) (weight_look_le p)
  · exact weight_item_lt fun hk => _h (.inl hk)

theorem fst_items_eq (p : Parsing) : p.items.1 = p.attempts.filterMap id := by
  fun_induction items p with
  | case1 p h => rw [attempts, dif_pos h, List.filterMap_nil]
  | case2 p h hsep ih => rw [attempts, dif_neg h, if_pos hsep, ih]
  | case3 p h hsep first rest ih =>
    rw [attempts, dif_neg h, if_neg hsep, List.filterMap_cons, ← ih]
    cases first.1 <;> rfl

theorem Tries.count_eq {o : Option (Item String) × Parsing} (h : Tries p o) :
    o.2.diagnostics.count = p.diagnostics.count + if o.1.isNone then 1 else 0 := by
  cases h with
  | read h => exact congrArg Diagnostics.count h.silent
  | fail h _ _ => exact congrArg Diagnostics.count h.silent

theorem Tries.yields_or_reports {o : Option (Item String) × Parsing} (h : Tries p o) :
    o.1.isSome = true ∧ o.2.diagnostics = p.diagnostics ∨
      o.1 = none ∧ ∃ r : Report, o.2.diagnostics = p.diagnostics.file r := by
  cases h with
  | read h => exact .inl ⟨rfl, h.silent⟩
  | fail h _ _ => exact .inr ⟨rfl, _, h.silent⟩

theorem Tries.takes {o : Option (Item String) × Parsing} (h : Tries p o) :
    ∃ n, p.scanner.Takes (n + 1) o.2.scanner ∧
      ∀ i, 0 < i → i < n + 1 → (p.upcoming i).kind.stopsBounds = false := by
  have hskims : ∃ q n, q.scanner = p.advance.scanner ∧ Skims q n o.2 := by
    cases h with
    | read h => exact ⟨p.advance, _, rfl, h⟩
    | @fail report _ _ _ h _ _ => exact ⟨p.advance.file report, _, rfl, h⟩
  obtain ⟨q, n, hq, h⟩ := hskims
  refine ⟨n, ?_, fun i hpos hi => ?_⟩
  · have htakes : p.advance.scanner.Takes n o.2.scanner := hq ▸ h.takes
    rw [Nat.add_comm]
    exact (Scanner.Takes.advance p.scanner).trans htakes
  · obtain ⟨i, rfl⟩ := Nat.exists_eq_succ_of_ne_zero (Nat.pos_iff_ne_zero.1 hpos)
    have hpasses := h.passes i (Nat.lt_of_succ_lt_succ hi)
    rwa [upcoming, hq] at hpasses

theorem count_items (p : Parsing) :
    p.items.2.diagnostics.count =
      p.diagnostics.count + p.attempts.countP Option.isNone := by
  fun_induction items p with
  | case1 p h => rw [attempts, dif_pos h]; rfl
  | case2 p h hsep ih => rw [attempts, dif_neg h, if_pos hsep, ih]; rfl
  | case3 p h hsep first rest ih =>
    have hfirst : first.2.diagnostics.count = _ := (tries_item p).count_eq
    rw [attempts, dif_neg h, if_neg hsep, ih, hfirst, List.countP_cons, Nat.add_assoc,
      Nat.add_comm (List.countP _ _)]

theorem ahead_items_eq (p : Parsing) : p.items.2.ahead = fromClosing p.ahead := by
  fun_induction items p with
  | case1 p h =>
    rw [ahead_look]
    rcases h with h | h
    · rw [ahead_of_end h]
      rfl
    · rw [ahead_of_ne (by simp [h]), fromClosing, List.dropWhile_cons_of_neg (by simp [h])]
  | case2 p h hsep ih =>
    have hne : p.current.kind ≠ .endOfInput := fun hk => h (.inl hk)
    have hopen : p.current.kind ≠ .closeBracket := fun hk => h (.inr hk)
    rw [ih, advance_look, ahead_of_ne hne, fromClosing, fromClosing,
      List.dropWhile_cons_of_pos (by simpa using hopen)]
  | case3 p h hsep first rest ih =>
    have hne : p.current.kind ≠ .endOfInput := fun hk => h (.inl hk)
    have hopen : p.current.kind ≠ .closeBracket := fun hk => h (.inr hk)
    obtain ⟨ts, hts, hpasses⟩ := passes_item p
    rw [ih, ahead_of_ne hne, hts, fromClosing, fromClosing,
      List.dropWhile_cons_of_pos (by simpa using hopen), List.dropWhile_append_of_pos]
    intro t ht
    simpa using kind_ne_of_stopsBounds (hpasses t ht) rfl

theorem count_rejectRest (p : Parsing) :
    p.rejectRest.diagnostics.count = p.diagnostics.count + p.ahead.length := by
  fun_induction rejectRest p with
  | case1 p h => rw [ahead_of_end h]; rfl
  | case2 p h complaint ih =>
    rw [ih, ahead_of_ne h, advance_look, List.length_cons, Nat.add_comm _ 1, ← Nat.add_assoc]
    rfl

def sequenceAttempts (p : Parsing) : List (Option (Item String)) :=
  if p.current.kind = .openBracket then p.advance.attempts else p.look.attempts

theorem fst_sequence_eq (p : Parsing) : p.sequence.1 = p.sequenceAttempts.filterMap id := by
  by_cases ho : p.current.kind = .openBracket
  · rw [sequence_bracketed ho, sequenceAttempts, if_pos ho, fst_items_eq]
  · rw [sequence_bare ho, sequenceAttempts, if_neg ho, fst_items_eq]

theorem count_closed (opening : Token) {c : Token} {ts : List Token} (h : p.ahead = c :: ts)
    (hc : c.kind = .closeBracket) :
    (p.closeSequence opening).rejectRest.diagnostics.count = p.diagnostics.count + ts.length := by
  have hcurrent := current_of_cons h
  have hclose : p.closeSequence opening = p.advance := by
    simp only [closeSequence, current_look, advance_look, hcurrent, hc, if_true]
  rw [hclose, count_rejectRest, (Reads.of_cons h).rest h]
  rfl

theorem count_unclosed (opening : Token) (h : p.ahead = []) :
    (p.closeSequence opening).rejectRest.diagnostics.count = p.diagnostics.count + 1 := by
  have hclose : p.closeSequence opening =
      p.look.file ((Report.about .expectedCloseBracket p.current).seeing opening) := by
    simp only [closeSequence, current_look, current_of_nil h, reduceCtorEq, if_false]
  have hahead : (p.closeSequence opening).ahead = [] := by
    rw [hclose]
    exact (ahead_look p).trans h
  rw [count_rejectRest, hahead, hclose]
  rfl

theorem count_sequence (p : Parsing) :
    p.sequence.2.diagnostics.count =
      p.diagnostics.count + p.sequenceAttempts.countP Option.isNone +
        (if leavesOpen p.ahead then 1 else 0) + (behindSequence p.ahead).length := by
  by_cases ho : p.current.kind = .openBracket
  · have hahead : p.ahead = p.current :: p.advance.ahead := ahead_of_ne (by simp [ho])
    have hopens : opensBracket p.ahead = true := by simp [hahead, opensBracket, ho]
    have hclosing : fromClosing p.ahead = p.advance.items.2.ahead := by
      rw [ahead_items_eq, hahead, fromClosing, List.dropWhile_cons_of_pos (by simp [ho])]
      rfl
    have hitems : p.advance.items.2.diagnostics.count =
        p.diagnostics.count + p.advance.attempts.countP Option.isNone := count_items p.advance
    rw [sequence_bracketed ho, sequenceAttempts, if_pos ho, behindSequence, if_pos hopens,
      leavesOpen_eq hopens, ← hitems, hclosing]
    rcases hq : p.advance.items.2.ahead with _ | ⟨c, cs⟩
    · exact count_unclosed _ hq
    · exact count_closed _ hq (kind_of_fromClosing (hclosing.trans hq))
  · have hbare : opensBracket p.ahead = false := by
      by_cases hend : p.current.kind = .endOfInput
      · rw [ahead_of_end hend]
        rfl
      · simp [ahead_of_ne hend, opensBracket, ho]
    rw [sequence_bare ho, sequenceAttempts, if_neg ho, count_rejectRest, count_items,
      ahead_items_eq, ahead_look, behindSequence, leavesOpen, hbare]
    rfl

end Parsing

/-- What the attempts at the items of a text come to. -/
def attempts (text : String) (d : Diagnostics) : List (Option (Item String)) :=
  Parsing.sequenceAttempts ⟨.ofText text, d⟩

theorem ne_of_count_lt {d d' : Diagnostics} (h : d.count < d'.count) : d' ≠ d := by
  rintro rfl
  exact absurd h (Nat.lt_irrefl _)

theorem isSome_parseSingle_iff (text : String) (d : Diagnostics) :
    (parseSingle text d).1.isSome = true ↔ (parseSingle text d).2 = d := by
  have htries := Parsing.tries_item ⟨.ofText text, d⟩
  have hcount := htries.count_eq
  unfold parseSingle
  generalize Parsing.item ⟨.ofText text, d⟩ = o at htries hcount ⊢
  cases htries with
  | @read item q n h =>
    dsimp only at hcount ⊢
    split
    · exact iff_of_true rfl h.silent
    · exact iff_of_false (by simp) (ne_of_count_lt (Nat.lt_succ_of_le (Nat.le_of_eq hcount.symm)))
  | @fail report q n i h _ _ =>
    have hlt : d.count < q.diagnostics.count := Nat.lt_of_lt_of_eq d.count.lt_succ_self hcount.symm
    dsimp only
    split
    · exact iff_of_false (by simp) (ne_of_count_lt hlt)
    · exact iff_of_false (by simp) (ne_of_count_lt (Nat.lt_succ_of_lt hlt))

/-- An item is read without a report, or it is not read and costs one. From any state of the parser
it takes a token, and after that none that the caller relies on. So the reports about a text are the
failed items, an opening bracket that is never closed, and the tokens behind the sequence; and an
item that stands alone is read if and only if nothing is reported. -/
theorem reports_per_item :
    (∀ p : Parsing,
      (p.item.1.isSome = true ∧ p.item.2.diagnostics = p.diagnostics ∨
        p.item.1 = none ∧ ∃ r : Report, p.item.2.diagnostics = p.diagnostics.file r) ∧
      ∃ n, p.scanner.Takes (n + 1) p.item.2.scanner ∧
        ∀ i, 0 < i → i < n + 1 →
          (p.upcoming i).kind.isSeparator = false ∧ (p.upcoming i).kind ≠ .closeBracket ∧
            (p.upcoming i).kind ≠ .endOfInput) ∧
    (∀ (text : String) (d : Diagnostics),
      (parse text d).1 = (attempts text d).filterMap id ∧
        (parse text d).2.count =
          d.count + (attempts text d).countP Option.isNone +
            (if leavesOpen (tokens text) then 1 else 0) + (behindSequence (tokens text)).length) ∧
    ∀ (text : String) (d : Diagnostics),
      (parseSingle text d).1.isSome = true ↔ (parseSingle text d).2 = d := by
  refine ⟨fun p => ⟨?_, ?_⟩, fun text d => ⟨?_, ?_⟩, isSome_parseSingle_iff⟩
  · exact (Parsing.tries_item p).yields_or_reports
  · obtain ⟨n, htakes, hpasses⟩ := (Parsing.tries_item p).takes
    refine ⟨n, htakes, fun i hpos hi => ?_⟩
    have hstops := hpasses i hpos hi
    refine ⟨Bool.eq_false_iff.2 fun hsep => ?_, Parsing.kind_ne_of_stopsBounds hstops rfl,
      Parsing.kind_ne_of_stopsBounds hstops rfl⟩
    exact Parsing.kind_ne_of_stopsBounds hstops (Parsing.stopsBounds_of_isSeparator hsep) rfl
  · exact Parsing.fst_sequence_eq _
  · exact Parsing.count_sequence ⟨.ofText text, d⟩

end SeqAlign.Text
