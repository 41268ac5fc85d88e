import Mathlib.Logic.Function.Iterate
import SeqAlign.Proofs.Text.Layout

/-!
# SeqAlign.Proofs.Text.Lookahead

Looking ahead does not change what is read.

* `Scanner.upcoming`: the token that will be taken after so many others. A look at the tokens ahead
  shows it (`fst_peek`).
* `Scanner.fetch`: one more token in the queue. Filling the queue is doing this again and again
  (`fill_succ`), and what will be taken stays as it is (`upcoming_fetch`).
* `Scanner.exists_stream`: a scanner without a queue has finitely many tokens before the end of
  input, which comes for ever after.
* `Usage`: a scanner with the tokens that it has returned, under any requests.
* `Usage.Follows`: what has been read is the beginning of the tokens of the text, and what will be
  taken comes behind what has been returned. Every request keeps it (`Follows.perform`).
* `usage_follows_scan`: so whatever is asked of a scanner, it returns the tokens of the text.
-/

namespace SeqAlign.Text

namespace Scanner

/-- The token that will be taken after so many others. -/
def upcoming (s : Scanner) (k : Nat) : Token := (advance^[k] s).current

theorem upcoming_succ (s : Scanner) (k : Nat) : s.upcoming (k + 1) = s.advance.upcoming k := rfl

theorem upcoming_iterate (s : Scanner) (n k : Nat) :
    (advance^[n] s).upcoming k = s.upcoming (n + k) := by
  rw [upcoming, upcoming, ← Function.iterate_add_apply, Nat.add_comm]

theorem upcoming_look (s : Scanner) (k : Nat) : s.look.upcoming k = s.upcoming k := by
  cases k with
  | zero => exact current_look s
  | succ k => rw [upcoming_succ, upcoming_succ, advance_look]

/-- One more token has been read into the queue. -/
def fetch (s : Scanner) : Scanner := { s.read.2 with queue := s.queue ++ [s.read.1] }

theorem look_eq_fetch {s : Scanner} (h : s.queue = []) : s.look = s.fetch := by
  rw [look_of_queue_eq_nil h, fetch, h, List.nil_append]

theorem readOnto_queue (ts : List Token) (n : Nat) (s : Scanner) (queue : List Token) :
    readOnto ts n { s with queue } =
      ((readOnto ts n s).1, { (readOnto ts n s).2 with queue }) := by
  induction n generalizing ts s with
  | zero => rfl
  | succ n ih => exact ih (s.read.1 :: ts) s.read.2

theorem fill_succ (n : Nat) (s : Scanner) : s.fill (n + 1) = s.fetch.fill n := by
  simp only [fill, fetch, readOnto, readOnto_queue, List.reverse_append, List.reverse_singleton,
    List.singleton_append]

theorem length_queue_fill (n : Nat) (s : Scanner) :
    (s.fill n).queue.length = s.queue.length + n := by
  induction n generalizing s with
  | zero => simp [fill, readOnto]
  | succ n ih =>
    rw [fill_succ, ih, fetch, List.length_append, List.length_singleton]
    omega

theorem upcoming_fetch (s : Scanner) (k : Nat) : s.fetch.upcoming k = s.upcoming k := by
  induction k generalizing s with
  | zero =>
    obtain ⟨text, loc, queue, err⟩ := s
    cases queue <;> rfl
  | succ k ih =>
    rw [upcoming_succ, upcoming_succ]
    by_cases h : s.queue = []
    · rw [← look_eq_fetch h, advance_look]
    · have hadvance : s.fetch.advance = s.advance.fetch := by
        obtain ⟨text, loc, queue, err⟩ := s
        cases queue with
        | nil => exact absurd rfl h
        | cons t ts => rfl
      rw [hadvance, ih]

theorem upcoming_fill (n : Nat) (s : Scanner) (k : Nat) : (s.fill n).upcoming k = s.upcoming k := by
  induction n generalizing s with
  | zero => simp [fill, readOnto]
  | succ n ih => rw [fill_succ, ih, upcoming_fetch]

theorem upcoming_of_lt {s : Scanner} {k : Nat} (h : k < s.queue.length) :
    s.upcoming k = s.queue[k] := by
  induction k generalizing s with
  | zero =>
    obtain ⟨text, loc, queue, err⟩ := s
    cases queue with
    | nil => cases h
    | cons t ts => rfl
  | succ k ih =>
    obtain ⟨text, loc, queue, err⟩ := s
    cases queue with
    | nil => cases h
    | cons t ts => exact ih (s := ⟨text, loc, ts, err⟩) (Nat.lt_of_succ_lt_succ h)

theorem upcoming_length_queue (s : Scanner) : s.upcoming s.queue.length = s.read.1 := by
  have hlength : s.queue.length < s.fetch.queue.length := by simp [fetch]
  rw [← upcoming_fetch, upcoming_of_lt hlength]
  simp [fetch]

theorem peek_of_lt {s : Scanner} {k : Nat} (h : k < s.queue.length) :
    s.peek k = (s.queue[k], s) := by
  rw [peek, List.getElem?_eq_getElem h]

theorem peek_of_le {s : Scanner} {k : Nat} (h : s.queue.length ≤ k) :
    s.peek k = (s.upcoming k, s.fill (k + 1 - s.queue.length)) := by
  have hlength : k < (s.fill (k + 1 - s.queue.length)).queue.length := by
    rw [length_queue_fill]
    omega
  rw [peek, List.getElem?_eq_none h, ← upcoming_fill (k + 1 - s.queue.length),
    upcoming_of_lt hlength]
  simp only [List.getD_eq_getElem?_getD, List.getElem?_eq_getElem hlength, Option.getD_some]

/-- A look shows the token that will be taken after so many others. -/
theorem fst_peek (s : Scanner) (k : Nat) : (s.peek k).1 = s.upcoming k := by
  by_cases h : k < s.queue.length
  · rw [peek_of_lt h, upcoming_of_lt h]
  · rw [peek_of_le (Nat.le_of_not_lt h)]

theorem Ends.upcoming {s : Scanner} {loc : Location} (h : s.Ends loc) (k : Nat) :
    s.upcoming k = .endOfInput loc :=
  h.iterate k

theorem ends_of_current {s : Scanner} (hqueue : s.queue = []) (h : s.current.kind = .endOfInput) :
    ∃ loc, s.Ends loc := by
  rw [current_of_queue_eq_nil hqueue] at h
  rcases hblanks : skipBlanks s.text s.location with ⟨_ | ⟨c, cs⟩, loc⟩
  · exact ⟨loc, hqueue, hblanks⟩
  · rw [readToken_of_cons hblanks] at h
    exact absurd h (ofFirst_ne_endOfInput c)

theorem ends_of_isAtEnd {s : Scanner} (h : s.isAtEnd = true) : s.Ends s.location := by
  obtain ⟨htext, hqueue⟩ := Bool.and_eq_true_iff.1 h
  refine ⟨List.isEmpty_iff.1 hqueue, ?_⟩
  rw [List.isEmpty_iff.1 htext, skipBlanks]

theorem exists_stream {s : Scanner} (hqueue : s.queue = []) :
    ∃ ts loc, s.drain.1 = ts ++ [.endOfInput loc] ∧ (∀ t ∈ ts, t.kind ≠ .endOfInput) ∧
      ∀ k, s.upcoming k = ts[k]?.getD (.endOfInput loc) := by
  -- by induction on the work that is left
  induction hn : s.weight using Nat.strongRecOn generalizing s with
  | ind n ih =>
    by_cases hend : s.current.kind = .endOfInput
    · obtain ⟨loc, hends⟩ := ends_of_current hqueue hend
      refine ⟨[], loc, ?_, nofun, hends.upcoming⟩
      rw [drain, dif_pos hend, hends.current]
      rfl
    · obtain ⟨ts, loc, hdrain, hts, hupcoming⟩ :=
        ih _ (hn ▸ weight_advance_lt hend) (advance_of_queue_eq_nil hqueue).2 rfl
      refine ⟨s.current :: ts, loc, ?_, List.forall_mem_cons.2 ⟨hend, hts⟩, ?_⟩
      · rw [drain, dif_neg hend]
        exact congrArg (s.current :: ·) hdrain
      · intro k
        cases k with
        | zero => rfl
        | succ k => exact hupcoming k

end Scanner

/-! ## Requests in any order -/

/-- What may be asked of a scanner. -/
inductive Request where
  | next
  | peek (ahead : Nat)
  | isAtEnd
  | hasError
deriving DecidableEq

structure Usage where
  scanner : Scanner
  /-- The tokens that it has returned as the next ones. -/
  returned : List Token

namespace Usage

def ofText (text : String) : Usage := ⟨.ofText text, []⟩

def perform (u : Usage) : Request → Usage
  | .next => ⟨u.scanner.next.2, u.returned ++ [u.scanner.next.1]⟩
  | .peek ahead => { u with scanner := (u.scanner.peek ahead).2 }
  | .isAtEnd | .hasError => u

def performAll (u : Usage) (requests : List Request) : Usage := requests.foldl perform u

/-- The tokens that have been read: those that have been returned and those that wait. -/
def seen (u : Usage) : List Token := u.returned ++ u.scanner.queue

theorem length_returned_performAll (u : Usage) (requests : List Request) :
    (u.performAll requests).returned.length = u.returned.length + requests.count .next := by
  induction requests generalizing u with
  | nil => rfl
  | cons request requests ih =>
    refine (ih (u.perform request)).trans ?_
    cases request with
    | next =>
      rw [perform, List.length_append, List.length_singleton, List.count_cons_self]
      omega
    | peek _ | isAtEnd | hasError => simp [perform]

/-- What has been read and what will be taken are the tokens of this sequence. -/
structure Follows (u : Usage) (nth : Nat → Token) : Prop where
  seen : u.seen = (List.range u.seen.length).map nth
  upcoming : ∀ k, u.scanner.upcoming k = nth (u.returned.length + k)
  hasError : u.scanner.hasError = u.seen.any Token.isUndefined

namespace Follows

variable {u : Usage} {nth : Nat → Token}

theorem fetch (h : u.Follows nth) : Follows { u with scanner := u.scanner.fetch } nth := by
  have hseen : Usage.seen { u with scanner := u.scanner.fetch } = u.seen ++ [u.scanner.read.1] := by
    simp [Usage.seen, Scanner.fetch]
  have hread : u.scanner.read.1 = nth u.seen.length := by
    rw [← Scanner.upcoming_length_queue, h.upcoming, Usage.seen, List.length_append]
  refine ⟨?_, fun k => (Scanner.upcoming_fetch _ k).trans (h.upcoming k), ?_⟩
  · rw [hseen, List.length_append, List.length_singleton, List.range_succ, List.map_append, ← h.seen,
      hread]
    rfl
  · rw [hseen, List.any_append, ← h.hasError]
    simp [Scanner.fetch, Scanner.read]

theorem pop (h : u.Follows nth) (hqueue : u.scanner.queue ≠ []) : (u.perform .next).Follows nth := by
  obtain ⟨⟨text, loc, queue, err⟩, returned⟩ := u
  cases queue with
  | nil => exact absurd rfl hqueue
  | cons t ts =>
    have hseen : Usage.seen (perform ⟨⟨text, loc, t :: ts, err⟩, returned⟩ .next) =
        Usage.seen ⟨⟨text, loc, t :: ts, err⟩, returned⟩ := by
      simp [Usage.seen, perform, Scanner.next]
    refine ⟨hseen ▸ h.seen, fun k => ?_, hseen ▸ h.hasError⟩
    have hupcoming := h.upcoming (k + 1)
    rw [Scanner.upcoming_succ] at hupcoming
    refine hupcoming.trans (congrArg nth ?_)
    simp only [perform, List.length_append, List.length_singleton]
    omega

theorem next (h : u.Follows nth) : (u.perform .next).Follows nth := by
  by_cases hqueue : u.scanner.queue = []
  · -- the token that is returned may as well wait before
    have hfetch : u.perform .next = perform { u with scanner := u.scanner.fetch } .next := by
      obtain ⟨⟨text, loc, queue, err⟩, returned⟩ := u
      obtain rfl : queue = [] := hqueue
      rfl
    rw [hfetch]
    exact h.fetch.pop (by simp [Scanner.fetch])
  · exact h.pop hqueue

theorem fill (h : u.Follows nth) (n : Nat) :
    Follows { u with scanner := u.scanner.fill n } nth := by
  induction n generalizing u with
  | zero => simpa [Scanner.fill, Scanner.readOnto] using h
  | succ n ih =>
    rw [Scanner.fill_succ]
    exact ih h.fetch

theorem peek (h : u.Follows nth) (ahead : Nat) : (u.perform (.peek ahead)).Follows nth := by
  by_cases hlt : ahead < u.scanner.queue.length
  · rwa [perform, Scanner.peek_of_lt hlt]
  · rw [perform, Scanner.peek_of_le (Nat.le_of_not_lt hlt)]
    exact h.fill _

theorem perform (h : u.Follows nth) (request : Request) : (u.perform request).Follows nth := by
  cases request with
  | next => exact h.next
  | peek ahead => exact h.peek ahead
  | isAtEnd => exact h
  | hasError => exact h

theorem performAll (h : u.Follows nth) (requests : List Request) :
    (u.performAll requests).Follows nth := by
  induction requests generalizing u with
  | nil => exact h
  | cons request requests ih => exact ih (h.perform request)

theorem returned_eq (h : u.Follows nth) : u.returned = (List.range u.returned.length).map nth := by
  have hle : u.returned.length ≤ u.seen.length := by simp [Usage.seen]
  calc u.returned = u.seen.take u.returned.length := by simp [Usage.seen]
    _ = ((List.range u.seen.length).map nth).take u.returned.length := by rw [← h.seen]
    _ = (List.range u.returned.length).map nth := by
      rw [← List.map_take, List.take_range, Nat.min_eq_left hle]

theorem returned_performAll (h : u.Follows nth) (requests : List Request) :
    (u.performAll requests).returned =
      (List.range (u.returned.length + requests.count .next)).map nth := by
  rw [(h.performAll requests).returned_eq, length_returned_performAll]

theorem returned_peek (h : u.Follows nth) {k : Nat} {requests : List Request}
    (hk : k < requests.count .next) :
    (u.performAll requests).returned[u.returned.length + k]? = some (u.scanner.peek k).1 := by
  rw [h.returned_performAll, Scanner.fst_peek, h.upcoming]
  simp [hk]

theorem of_mem_drop_returned (h : u.Follows nth) {requests : List Request} {t : Token}
    (ht : t ∈ (u.performAll requests).returned.drop u.returned.length) :
    ∃ k, t = u.scanner.upcoming k := by
  obtain ⟨k, hk⟩ := List.mem_iff_getElem?.1 ht
  rw [List.getElem?_drop, h.returned_performAll, List.getElem?_map, Option.map_eq_some_iff] at hk
  obtain ⟨i, hi, rfl⟩ := hk
  obtain ⟨_, rfl⟩ := List.getElem?_eq_some_iff.1 hi
  exact ⟨k, by rw [List.getElem_range, h.upcoming]⟩

theorem upcoming_of_isAtEnd (h : u.Follows nth) (hend : u.scanner.isAtEnd = true) {last : Token}
    {n : Nat} (hlast : ∀ k, n ≤ k → nth k = last) (k : Nat) : u.scanner.upcoming k = last := by
  have hends := Scanner.ends_of_isAtEnd hend
  rw [hends.upcoming k, ← hends.upcoming n, h.upcoming]
  exact hlast _ (Nat.le_add_left _ _)

end Follows

theorem follows_ofText (text : String) : (ofText text).Follows (Scanner.ofText text).upcoming :=
  ⟨rfl, fun k => congrArg _ (Nat.zero_add k).symm, rfl⟩

end Usage

/-- Whatever is asked of a scanner in whatever order, it returns the tokens that come without a look
ahead, and then the end of input for ever. A look shows the token that the same number of requests
for the next one lead to. -/
theorem usage_follows_scan (text : String) :
    ∃ (ts : List Token) (loc : Location),
      scan text = ts ++ [.endOfInput loc] ∧ (∀ t ∈ ts, t.kind ≠ .endOfInput) ∧
        ∀ requests : List Request,
          let nth (i : Nat) : Token := ts[i]?.getD (.endOfInput loc)
          let u := (Usage.ofText text).performAll requests
          u.returned = (List.range (requests.count .next)).map nth ∧
            u.seen = (List.range u.seen.length).map nth ∧
            (∀ (k : Nat) (later : List Request), k < later.count .next →
              (u.performAll later).returned[u.returned.length + k]? = some (u.scanner.peek k).1) ∧
            (u.scanner.hasError = true ↔ ∃ t ∈ u.seen, t.isUndefined = true) ∧
            (u.scanner.isAtEnd = true → ∀ later : List Request,
              ∀ t ∈ (u.performAll later).returned.drop u.returned.length, t = .endOfInput loc) := by
  obtain ⟨ts, loc, hscan, hts, hupcoming⟩ := Scanner.exists_stream (s := .ofText text) rfl
  refine ⟨ts, loc, hscan, hts, fun requests => ?_⟩
  intro nth u
  have hnth : (Scanner.ofText text).upcoming = nth := funext hupcoming
  have hu : u.Follows nth := hnth ▸ (Usage.follows_ofText text).performAll requests
  have hlength : u.returned.length = requests.count .next := by
    rw [Usage.length_returned_performAll]
    exact Nat.zero_add _
  have hlast (k : Nat) (hk : ts.length ≤ k) : nth k = .endOfInput loc := by
    simp [nth, List.getElem?_eq_none hk]
  refine ⟨hlength ▸ hu.returned_eq, hu.seen, fun k later hk => hu.returned_peek hk, ?_, ?_⟩
  · rw [hu.hasError, List.any_eq_true]
  · intro hend later t ht
    obtain ⟨k, rfl⟩ := hu.of_mem_drop_returned ht
    exact hu.upcoming_of_isAtEnd hend hlast k

/-- A look far enough ahead finds the stray byte before it is returned. -/
example : ((Usage.ofText "a $").performAll [.peek 1, .next]).scanner.hasError = true ∧
    ((Usage.ofText "a $").performAll [.next]).scanner.hasError = false := by decide +kernel

end SeqAlign.Text
