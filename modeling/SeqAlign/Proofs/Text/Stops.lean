import SeqAlign.Proofs.Text.Lookahead

/-!
# SeqAlign.Proofs.Text.Stops

Where the parts of an item stop, and what they cost.

* `Scanner.Takes`: from the one to the other so many tokens have been taken.
* `Parsing.Skims`: the same without a report, where none of the tokens ends malformed bounds. So no
  separator, no closing bracket and no end of input is among them.
* `Parsing.Costs`: a part of an item yields something and skims, or it yields nothing and files one
  report. The report is about a token that is taken or about the one that comes next.
* `costs_bounds` and its like: so does every part, whether it succeeds or recovers from an error.
* `tries_item`: so does an item, after its first token.
* `ahead_suffix_item`: what is ahead behind an item was ahead before it.
-/

namespace SeqAlign.Text

namespace Scanner

/-- From the one to the other so many tokens have been taken, with any looks at the next token on
the way. -/
def Takes (s : Scanner) (n : Nat) (s' : Scanner) : Prop := s'.look = (advance^[n] s).look

theorem queue_look_ne_nil (s : Scanner) : s.look.queue ≠ [] := by
  obtain ⟨text, loc, queue, err⟩ := s
  cases queue <;> exact List.cons_ne_nil _ _

namespace Takes

variable {s s' s'' : Scanner} {n k : Nat}

theorem look (s : Scanner) : s.Takes 0 s.look := look_of_queue_ne_nil s.queue_look_ne_nil

theorem advance (s : Scanner) : s.Takes 1 s.advance := rfl

theorem trans (h : s.Takes n s') (h' : s'.Takes k s'') : s.Takes (n + k) s'' := by
  rw [Takes, Nat.add_comm, Function.iterate_add_apply]
  cases k with
  | zero => exact h'.trans h
  | succ k =>
    have hnext : s'.advance = Scanner.advance (Scanner.advance^[n] s) := by
      rw [← advance_look s', h, advance_look]
    rw [Takes, Function.iterate_succ_apply, hnext] at h'
    exact h'

theorem upcoming (h : s.Takes n s') (k : Nat) : s'.upcoming k = s.upcoming (n + k) := by
  rw [← upcoming_look, h, upcoming_look, upcoming_iterate]

theorem ahead (h : s.Takes n s') (hends : ∀ i < n, (s.upcoming i).kind ≠ .endOfInput) :
    s.ahead = (List.range n).map s.upcoming ++ s'.ahead := by
  have hahead : s'.ahead = (Scanner.advance^[n] s).ahead := by
    rw [← ahead_look s', h, ahead_look]
  rw [hahead]
  clear h hahead
  induction n with
  | zero => rfl
  | succ n ih =>
    have hlast : (Scanner.advance^[n] s).current.kind ≠ .endOfInput := hends n n.lt_succ_self
    rw [ih fun i hi => hends i (Nat.lt_succ_of_lt hi), ahead_of_ne hlast,
      Function.iterate_succ_apply', List.range_succ, List.map_append, List.append_assoc]
    rfl

end Takes

end Scanner

namespace Parsing

variable {α β : Type} {p q r : Parsing} {n k : Nat}

def upcoming (p : Parsing) (k : Nat) : Token := p.scanner.upcoming k

theorem kind_ne_of_stopsBounds {k k' : TokenKind} (h : k.stopsBounds = false)
    (h' : k'.stopsBounds = true) : k ≠ k' := by
  rintro rfl
  rw [h] at h'
  cases h'

theorem ne_endOfInput_of_stopsBounds {k : TokenKind} (h : k.stopsBounds = false) :
    k ≠ .endOfInput :=
  kind_ne_of_stopsBounds h rfl

theorem stopsBounds_of_isSeparator {k : TokenKind} (h : k.isSeparator = true) :
    k.stopsBounds = true := by
  cases k <;> simp [TokenKind.isSeparator, TokenKind.stopsBounds] at *

theorem stopsBounds_of_stopsItem {k : TokenKind} (h : k.stopsItem = false) :
    k.stopsBounds = false := by
  revert h
  cases k <;> simp [TokenKind.stopsItem, TokenKind.stopsBounds]

/-- Tokens have been taken that end no malformed bounds, and nothing has been reported. -/
structure Skims (p : Parsing) (n : Nat) (q : Parsing) : Prop where
  takes : p.scanner.Takes n q.scanner
  passes : ∀ i < n, (p.upcoming i).kind.stopsBounds = false
  silent : q.diagnostics = p.diagnostics

namespace Skims

theorem refl (p : Parsing) : Skims p 0 p := ⟨rfl, nofun, rfl⟩

theorem look (p : Parsing) : Skims p 0 p.look := ⟨.look p.scanner, nofun, rfl⟩

theorem advance (h : p.current.kind.stopsBounds = false) : Skims p 1 p.advance := by
  refine ⟨.advance p.scanner, fun i hi => ?_, rfl⟩
  obtain rfl : i = 0 := Nat.lt_one_iff.1 hi
  exact h

theorem upcoming (h : Skims p n q) (k : Nat) : q.upcoming k = p.upcoming (n + k) :=
  h.takes.upcoming k

theorem trans (h : Skims p n q) (h' : Skims q k r) : Skims p (n + k) r := by
  refine ⟨h.takes.trans h'.takes, fun i hi => ?_, h'.silent.trans h.silent⟩
  by_cases hlt : i < n
  · exact h.passes i hlt
  · have hpasses := h'.passes (i - n) (by omega)
    rwa [h.upcoming, Nat.add_sub_of_le (Nat.le_of_not_lt hlt)] at hpasses

theorem file (h : Skims p n q) (report : Report) : Skims (p.file report) n (q.file report) :=
  ⟨h.takes, h.passes, congrArg (Diagnostics.file · report) h.silent⟩

end Skims

/-- The tokens taken end no malformed bounds. -/
def Passes (p q : Parsing) : Prop :=
  ∃ ts, p.ahead = ts ++ q.ahead ∧ ∀ t ∈ ts, t.kind.stopsBounds = false

theorem Passes.suffix (h : Passes p q) : q.ahead <:+ p.ahead := by
  obtain ⟨ts, hts, _⟩ := h
  exact ⟨ts, hts.symm⟩

theorem Skims.ahead (h : Skims p n q) : Passes p q := by
  refine ⟨(List.range n).map p.upcoming, ?_, ?_⟩
  · exact h.takes.ahead fun i hi => ne_endOfInput_of_stopsBounds (h.passes i hi)
  · intro t ht
    obtain ⟨i, hi, rfl⟩ := List.mem_map.1 ht
    exact h.passes i (List.mem_range.1 hi)

theorem toItemEnd_eq (p : Parsing) :
    p.toItemEnd = if p.current.kind.stopsItem then p.look else p.advance.toItemEnd := by
  have hcurrent : p.scanner.current = p.current := rfl
  simp only [toItemEnd, look, advance]
  rw [Scanner.toItemEnd, Scanner.current_look, Scanner.advance_look, hcurrent]
  split <;> rfl

theorem afterBounds_eq (p : Parsing) :
    p.afterBounds =
      if p.current.kind = .closeBrace then p.advance
      else if p.current.kind.stopsBounds then p.look
      else p.advance.afterBounds := by
  have hcurrent : p.scanner.current = p.current := rfl
  simp only [afterBounds, look, advance]
  rw [Scanner.afterBounds, Scanner.current_look, Scanner.advance_look, hcurrent]
  split
  · rfl
  · split <;> rfl

theorem skims_toItemEnd (p : Parsing) : ∃ n, Skims p n p.toItemEnd := by
  -- by induction on the work that is left
  induction hn : p.weight using Nat.strongRecOn generalizing p with
  | ind n ih =>
    rw [toItemEnd_eq]
    split
    · exact ⟨0, .look p⟩
    · rename_i hstops
      have hpasses := stopsBounds_of_stopsItem (Bool.eq_false_iff.2 hstops)
      have hlt := weight_advance_lt (ne_endOfInput_of_stopsBounds hpasses)
      obtain ⟨k, hk⟩ := ih _ (hn ▸ hlt) p.advance rfl
      exact ⟨1 + k, (Skims.advance hpasses).trans hk⟩

theorem skims_afterBounds (p : Parsing) : ∃ n, Skims p n p.afterBounds := by
  induction hn : p.weight using Nat.strongRecOn generalizing p with
  | ind n ih =>
    rw [afterBounds_eq]
    split
    · rename_i hk
      exact ⟨1, .advance (by rw [hk]; rfl)⟩
    split
    · exact ⟨0, .look p⟩
    · rename_i hstops
      have hpasses := Bool.eq_false_iff.2 hstops
      have hlt := weight_advance_lt (ne_endOfInput_of_stopsBounds hpasses)
      obtain ⟨k, hk⟩ := ih _ (hn ▸ hlt) p.advance rfl
      exact ⟨1 + k, (Skims.advance hpasses).trans hk⟩

/-! ## The parts of an item -/

/-- Something without a report, or nothing with one, about a token that is taken or the next one. -/
inductive Costs (p : Parsing) : Option α × Parsing → Prop where
  | nothing {a : α} {q : Parsing} {n : Nat} : Skims p n q → Costs p (some a, q)
  | report {report : Report} {q : Parsing} {n i : Nat} :
      Skims (p.file report) n q → i ≤ n → report.subject = p.upcoming i → Costs p (none, q)

namespace Costs

variable {o : Option α × Parsing} {a : α}

theorem skims (h : Costs p (some a, q)) : ∃ n, Skims p n q := by
  cases h with
  | nothing h => exact ⟨_, h⟩

theorem after (h : Skims p n q) (ho : Costs q o) : Costs p o := by
  cases ho with
  | nothing h' => exact .nothing (h.trans h')
  | report h' hi hsubject =>
    refine .report ((h.file _).trans h') (Nat.add_le_add_left hi n) ?_
    rw [hsubject, h.upcoming]

theorem recover (h : Costs p ((none : Option α), q)) (h' : Skims q n r) :
    Costs p ((none : Option β), r) := by
  cases h with
  | report hq hi hsubject => exact .report (hq.trans h') (Nat.le_add_right_of_le hi) hsubject

theorem complain (h : Skims p n q) {report : Report} (hsubject : report.subject = q.current)
    (h' : Skims (q.file report) k r) : Costs p ((none : Option α), r) := by
  refine .report ((h.file report).trans h') (Nat.le_add_right n k) ?_
  exact hsubject.trans (h.upcoming 0)

end Costs

theorem costs_bound (p : Parsing) : Costs p p.bound := by
  simp only [bound, current_look, advance_look]
  split
  · exact .nothing (.look p)
  · exact .nothing (.look p)
  · rename_i hk
    have hadvance : Skims p 1 p.advance := .advance (by rw [hk]; rfl)
    split
    · exact .nothing hadvance
    · exact .report (hadvance.file _) (Nat.zero_le _) rfl
  · exact .report ((Skims.look p).file _) (Nat.zero_le _) rfl

theorem costs_upperBound (lo : Bound) (p : Parsing) : Costs p (p.upperBound lo) := by
  simp only [upperBound, current_look, advance_look]
  split
  · rename_i hk
    have hcolon : Skims p 1 p.advance := .advance (by rw [hk]; rfl)
    have hbound := Costs.after hcolon (costs_bound p.advance)
    split
    · rename_i heq
      rw [heq] at hbound
      exact hbound
    · rename_i q heq
      rw [heq] at hbound
      obtain ⟨k, hk⟩ := skims_afterBounds q
      exact hbound.recover hk
  split
  · exact .nothing (.look p)
  · obtain ⟨k, hk⟩ := skims_afterBounds (p.look.file (.about .expectedInteger p.current))
    exact .complain (.look p) (current_look p).symm hk

/-- Inverted bounds are reported at their first token, which has been taken before. -/
theorem costs_closeBounds (opening : Token) (lo hi : Bound) {first : Parsing}
    (h : Skims first n p) : Costs first (p.closeBounds opening first.current lo hi) := by
  have hlook := h.trans (.look p)
  simp only [closeBounds, current_look, advance_look]
  split
  · rename_i hk
    have hclose := h.trans (.advance (p := p) (by rw [hk]; rfl))
    split
    · exact .nothing hclose
    · exact .report (hclose.file _) (Nat.zero_le _) rfl
  · obtain ⟨k, hk⟩ := skims_toItemEnd
      (p.look.file ((Report.about .expectedCloseBrace p.current).seeing opening))
    exact .complain hlook (current_look p).symm hk

theorem costs_bounds (opening : Token) (p : Parsing) : Costs p (p.bounds opening) := by
  refine .after (.look p) ?_
  have hlower := costs_bound p.look
  unfold bounds
  dsimp only
  split
  · rename_i q heq
    rw [heq] at hlower
    obtain ⟨k, hk⟩ := skims_afterBounds q
    exact hlower.recover hk
  · rename_i lo q heq
    rw [heq] at hlower
    obtain ⟨n, hn⟩ := hlower.skims
    have hupper := Costs.after hn (costs_upperBound lo q)
    split
    · rename_i r heq
      rw [heq] at hupper
      exact hupper.recover (.refl r)
    · rename_i hi r heq
      rw [heq] at hupper
      obtain ⟨k, hk⟩ := hupper.skims
      exact costs_closeBounds opening lo hi hk

theorem costs_quantifier (h : p.current.kind.startsQuantifier = true) : Costs p p.quantifier := by
  have hadvance : Skims p 1 p.advance := by
    refine .advance ?_
    revert h
    cases p.current.kind <;> simp [TokenKind.startsQuantifier, TokenKind.stopsBounds]
  unfold quantifier
  split
  · exact .nothing hadvance
  · exact .nothing hadvance
  · exact .nothing hadvance
  · exact .after hadvance (costs_bounds _ _)
  · exact .report (hadvance.file _) (Nat.zero_le _) rfl

/-- An item costs what its parts cost, but its first token may be any token. -/
inductive Tries (p : Parsing) : Option α × Parsing → Prop where
  | read {a : α} {q : Parsing} {n : Nat} : Skims p.advance n q → Tries p (some a, q)
  | fail {report : Report} {q : Parsing} {n i : Nat} :
      Skims (p.advance.file report) n q → i ≤ n + 1 → report.subject = p.upcoming i →
      Tries p (none, q)

theorem Costs.tries {o : Option α × Parsing} (h : Costs p.advance o) : Tries p o := by
  cases h with
  | nothing h => exact .read h
  | report h hi hsubject => exact .fail h (Nat.succ_le_succ hi) hsubject

theorem tries_item (p : Parsing) : Tries p p.item := by
  simp only [item, current_look, advance_look]
  split
  · refine Costs.tries (.after (.look p.advance) ?_)
    split
    · rename_i hstarts
      have hquantifier : Costs p.advance.look p.advance.look.quantifier :=
        costs_quantifier (by rwa [current_look])
      split
      · rename_i heq
        rw [heq] at hquantifier
        obtain ⟨n, hn⟩ := hquantifier.skims
        exact .nothing hn
      · rename_i q heq
        rw [heq] at hquantifier
        exact hquantifier.recover (.refl q)
    · exact .nothing (.refl p.advance.look)
  · obtain ⟨n, hn⟩ := skims_toItemEnd (p.advance.file
      (.about (if p.current.isUndefined then .strayByte else .expectedItem) p.current))
    exact .fail hn (Nat.zero_le _) rfl

theorem passes_item (p : Parsing) : Passes p.advance p.item.2 := by
  have htries := tries_item p
  generalize p.item = o at htries
  cases htries with
  | read h => exact h.ahead
  | fail h _ _ => exact h.ahead

theorem ahead_suffix_item (h : p.current.kind ≠ .endOfInput) : p.item.2.ahead <:+ p.ahead := by
  rw [ahead_of_ne h]
  exact (passes_item p).suffix.trans (List.suffix_cons _ _)

end Parsing

end SeqAlign.Text
