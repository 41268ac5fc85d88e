import Mathlib.Data.Finset.Card
import Mathlib.Data.Finset.Dedup
import SeqAlign.Verdicts

/-!
# SeqAlign.Proofs.Recall

What is remembered of the questions that a memoized relation was asked.

* `Verdicts.ask`: what one question does to the verdicts, hit or miss. `Verdicts.after` is what is
  known after some questions, the first verdict under each key (`getElem?_after`).
* `tallies_after`: there is one miss for each key, and all other questions are hits.
* `Handles.History`: the handles that have been made, and what has been asked since the verdicts
  were last cleared. Nothing else counts (`performAll_eq`).
* `key_eq_iff`: two pairs of texts have one key if they are the same, or if they overlap around a
  bar.
* `Handles.memory_answers`: so a question is answered from memory if and only if one with the same
  two texts, or with texts that overlap its own, was asked before.
-/

namespace SeqAlign

variable {β δ σ ε : Type}

namespace Verdicts

/-- The relation has this verdict on a question with this key. -/
def ask (v : Verdicts) (key : String) (verdict : Bool) : Verdicts :=
  if v.known.contains key then v.hit else v.miss.record key verdict

def after (key : β → String) (verdict : β → Bool) (asked : List β) : Verdicts :=
  asked.foldl (fun v q => v.ask (key q) (verdict q)) none

theorem run_getThe_bind {n : Type → Type} [Monad n] [LawfulMonad n] {α : Type}
    (f : Verdicts → ExceptT ε (StateT Verdicts n) α) (v : Verdicts) :
    (getThe Verdicts >>= f).run.run v = (f v).run.run v := by
  have hget : (getThe Verdicts : ExceptT ε (StateT Verdicts n) Verdicts) =
    ExceptT.lift get := rfl
  rw [hget]
  simp

theorem size_record {v : Verdicts} {k : String} (h : v.known[k]? = Option.none) (verdict : Bool) :
    (v.record k verdict).size = v.size + 1 := by
  have hnew : k ∉ v.known := by simpa using h
  simp [size, record, Std.HashMap.size_insertIfNew, hnew]

theorem hits_ask {v : Verdicts} {key : String} {verdict : Bool} :
    (v.ask key verdict).hits = v.hits + 1 ↔ v.known.contains key = true := by
  unfold ask
  split
  case isTrue hk => exact iff_of_true rfl hk
  case isFalse hk => exact iff_of_false (Nat.succ_ne_self v.hits).symm hk

section After

variable (key : β → String) (verdict : β → Bool) (asked : List β) (q : β)

theorem after_concat :
    after key verdict (asked ++ [q]) = (after key verdict asked).ask (key q) (verdict q) := by
  simp [after]

theorem getElem?_ask (v : Verdicts) (k l : String) (b : Bool) :
    (v.ask k b).known[l]? = v.known[l]?.or (if k = l then some b else Option.none) := by
  unfold ask
  split
  case isTrue hk =>
    by_cases hkl : k = l
    · subst hkl
      rw [Std.HashMap.contains_eq_isSome_getElem?] at hk
      obtain ⟨c, hc⟩ := Option.isSome_iff_exists.1 hk
      simp [hit, hc]
    · simp [hit, hkl]
  case isFalse hk =>
    simp only [record, miss, Std.HashMap.getElem?_insertIfNew]
    by_cases hkl : k = l
    · subst hkl
      have hnew : k ∉ v.known := by simpa using hk
      simp [hnew]
    · rw [if_neg (by simp [hkl]), if_neg hkl, Option.or_none]

/-- The first question with a key decides. -/
theorem getElem?_after (k : String) :
    (after key verdict asked).known[k]? = (asked.find? fun q => key q = k).map verdict := by
  induction asked using List.reverseRecOn with
  | nil => simp [after, none]
  | append_singleton asked q ih =>
    rw [after_concat, getElem?_ask, ih, List.find?_append]
    cases hfind : asked.find? fun q => key q = k with
    | some q' => simp
    | none => by_cases hq : key q = k <;> simp [hq]

theorem contains_after (k : String) :
    (after key verdict asked).known.contains k = true ↔ k ∈ asked.map key := by
  rw [Std.HashMap.contains_eq_isSome_getElem?, getElem?_after, Option.isSome_map,
    List.find?_isSome, List.mem_map]
  simp

end After

/-- The counters fit these keys of questions. -/
structure Tallies (v : Verdicts) (keys : List String) : Prop where
  misses_eq_size : v.misses = v.size
  size : v.size = keys.toFinset.card
  total : v.hits + v.misses = keys.length

theorem tallies_after (key : β → String) (verdict : β → Bool) (asked : List β) :
    (after key verdict asked).Tallies (asked.map key) := by
  induction asked using List.reverseRecOn with
  | nil => exact ⟨by simp [after, none, size], by simp [after, none, size], rfl⟩
  | append_singleton asked q ih =>
    obtain ⟨hmisses, hsize, htotal⟩ := ih
    have hmem := contains_after key verdict asked (key q)
    have hkeys : ((asked ++ [q]).map key).toFinset = insert (key q) (asked.map key).toFinset := by
      ext k
      simp
    have hlength : ((asked ++ [q]).map key).length = (asked.map key).length + 1 := by simp
    rw [after_concat, ask]
    split
    case isTrue hk =>
      have hold := List.mem_toFinset.2 (hmem.1 hk)
      refine ⟨hmisses, ?_, ?_⟩
      · rw [hkeys, Finset.insert_eq_of_mem hold]
        exact hsize
      · rw [hlength, ← htotal]
        simp only [hit]
        omega
    case isFalse hk =>
      have hnew : key q ∉ (asked.map key).toFinset := fun h => hk (hmem.2 (List.mem_toFinset.1 h))
      have hgrows : ((after key verdict asked).miss.record (key q) (verdict q)).size =
          (after key verdict asked).size + 1 := by
        have hunknown : (after key verdict asked).known[key q]? = Option.none := by simpa using hk
        exact size_record hunknown (verdict q)
      refine ⟨?_, ?_, ?_⟩
      · rw [hgrows, ← hmisses]
        rfl
      · rw [hkeys, Finset.card_insert_of_notMem hnew, hgrows, hsize]
      · rw [hlength, ← htotal]
        simp only [record, miss]
        omega

/-- The text of one question goes on, over a bar, into what the other one has behind its own bar. -/
def Overlaps (x y x' y' : String) : Prop := ∃ u, x' = x ++ "|" ++ u ∧ y = u ++ "|" ++ y'

theorem overlaps_of_append {x y x' y' : String} {us : List Char}
    (hx : x'.toList = x.toList ++ us) (hy : '|' :: y.toList = us ++ '|' :: y'.toList) :
    (x = x' ∧ y = y') ∨ Overlaps x y x' y' := by
  cases us with
  | nil =>
    rw [List.append_nil] at hx
    exact .inl ⟨String.toList_inj.1 hx.symm, String.toList_inj.1 (List.cons.inj hy).2⟩
  | cons c us =>
    obtain ⟨rfl, htail⟩ := List.cons.inj hy
    refine .inr ⟨String.ofList us, ?_, ?_⟩
    · exact String.toList_inj.1 (by simp [hx])
    · exact String.toList_inj.1 (by simpa using htail)

/-- Written with a bar between them, two pairs of texts look the same. -/
theorem bar_eq_iff {x y x' y' : String} :
    x ++ "|" ++ y = x' ++ "|" ++ y' ↔
      (x = x' ∧ y = y') ∨ Overlaps x y x' y' ∨ Overlaps x' y' x y := by
  constructor
  · intro h
    have hlists := congrArg String.toList h
    simp only [String.toList_append, List.append_assoc] at hlists
    rcases List.append_eq_append_iff.1 hlists with ⟨us, hx, hy⟩ | ⟨us, hx, hy⟩
    · exact (overlaps_of_append hx hy).imp_right .inl
    · exact (overlaps_of_append hx hy).imp (fun h => ⟨h.1.symm, h.2.symm⟩) .inr
  · rintro (⟨rfl, rfl⟩ | ⟨u, rfl, rfl⟩ | ⟨u, rfl, rfl⟩)
    · rfl
    · simp only [String.append_assoc]
    · simp only [String.append_assoc]

variable (destText : δ → String) (srcText : σ → String)

def SameTexts (q r : δ × σ) : Prop := destText q.1 = destText r.1 ∧ srcText q.2 = srcText r.2

def Overlapping (q r : δ × σ) : Prop :=
  Overlaps (destText q.1) (srcText q.2) (destText r.1) (srcText r.2) ∨
    Overlaps (destText r.1) (srcText r.2) (destText q.1) (srcText q.2)

variable {destText srcText}

theorem key_eq_iff {q r : δ × σ} :
    key destText srcText q.1 q.2 = key destText srcText r.1 r.2 ↔
      SameTexts destText srcText q r ∨ Overlapping destText srcText q r :=
  bar_eq_iff

theorem not_overlaps_self {x y y' : String} : ¬ Overlaps x y x y' := by
  rintro ⟨u, hx, _⟩
  have hlength := congrArg String.length hx
  simp only [String.length_append] at hlength
  have hbar : "|".length = 1 := rfl
  omega

theorem SameTexts.not_overlapping {q r : δ × σ} (h : SameTexts destText srcText q r) :
    ¬ Overlapping destText srcText q r := by
  rintro (hover | hover)
  · rw [h.1] at hover
    exact not_overlaps_self hover
  · rw [h.1] at hover
    exact not_overlaps_self hover

theorem not_overlapping_of_no_bar
    (h : (∀ d, '|' ∉ (destText d).toList) ∨ ∀ s, '|' ∉ (srcText s).toList) (q r : δ × σ) :
    ¬ Overlapping destText srcText q r := by
  rintro (⟨u, hx, hy⟩ | ⟨u, hx, hy⟩)
  · rcases h with h | h
    · exact h r.1 (by simp [hx])
    · exact h q.2 (by simp [hy])
  · rcases h with h | h
    · exact h q.1 (by simp [hx])
    · exact h r.2 (by simp [hy])

end Verdicts

namespace Handles

/-- The handles that have been made, and what has been asked since the last time that all was
cleared. -/
structure History (δ σ : Type) where
  handles : Nat
  asked : List (δ × σ)

def History.extend (h : History δ σ) : Request δ σ → History δ σ
  | .ask handle d s => if handle < h.handles then { h with asked := h.asked ++ [(d, s)] } else h
  | .copy handle => if handle < h.handles then { h with handles := h.handles + 1 } else h
  | .clear handle => if handle < h.handles then { h with asked := [] } else h

def History.of (requests : List (Request δ σ)) : History δ σ := requests.foldl extend ⟨1, []⟩

section Perform

variable (destText : δ → String) (srcText : σ → String) (p : δ → σ → Bool)

def performTotal (hs : Handles) (request : Request δ σ) : Option (Except Empty Bool) × Handles :=
  hs.perform destText srcText (fun d s => .ok (p d s)) request

def performAll (requests : List (Request δ σ)) : Handles :=
  requests.foldl (fun hs request => (hs.performTotal destText srcText p request).2) fresh

def ofHistory (h : History δ σ) : Handles :=
  ⟨.after (fun q => Verdicts.key destText srcText q.1 q.2) (fun q => p q.1 q.2) h.asked, h.handles⟩

def Recalls (hs : Handles) (handle : Nat) (q : δ × σ) : Prop :=
  (hs.performTotal destText srcText p (.ask handle q.1 q.2)).2.verdicts.hits = hs.verdicts.hits + 1

variable {destText srcText p}

theorem performTotal_ask {hs : Handles} {handle : Nat} (h : handle < hs.count) (d : δ) (s : σ) :
    hs.performTotal destText srcText p (.ask handle d s) =
      (some (.ok ((hs.verdicts.known[Verdicts.key destText srcText d s]?).getD (p d s))),
        { hs with verdicts := hs.verdicts.ask (Verdicts.key destText srcText d s) (p d s) }) := by
  simp only [performTotal, perform, h, if_true, Verdicts.ask, memoized, Verdicts.run_getThe_bind,
    Std.HashMap.contains_eq_isSome_getElem?]
  cases hs.verdicts.known[Verdicts.key destText srcText d s]? with
  | none => rfl
  | some verdict => rfl

theorem performTotal_ofHistory (h : History δ σ) (request : Request δ σ) :
    ((ofHistory destText srcText p h).performTotal destText srcText p request).2 =
      ofHistory destText srcText p (h.extend request) := by
  cases request with
  | ask handle d s =>
    by_cases hlt : handle < h.handles
    · rw [performTotal_ask hlt]
      simp only [ofHistory, History.extend, hlt, if_true, Verdicts.after_concat]
    · simp [performTotal, perform, ofHistory, History.extend, hlt]
  | copy handle =>
    by_cases hlt : handle < h.handles <;>
      simp [performTotal, perform, ofHistory, History.extend, hlt]
  | clear handle =>
    by_cases hlt : handle < h.handles <;>
      simp [performTotal, perform, ofHistory, History.extend, hlt, Verdicts.after]

theorem performAll_eq (requests : List (Request δ σ)) :
    performAll destText srcText p requests =
      ofHistory destText srcText p (History.of requests) := by
  induction requests using List.reverseRecOn with
  | nil => rfl
  | append_singleton requests request ih =>
    simp only [performAll, History.of, List.foldl_append, List.foldl_cons, List.foldl_nil] at ih ⊢
    rw [ih]
    exact performTotal_ofHistory _ request

/-! ## Answers from memory -/

variable {requests : List (Request δ σ)} {handle : Nat} {q : δ × σ}

theorem recalls_iff (h : handle < (History.of requests).handles) :
    Recalls destText srcText p (performAll destText srcText p requests) handle q ↔
      ∃ r ∈ (History.of requests).asked, Verdicts.SameTexts destText srcText r q ∨
        Verdicts.Overlapping destText srcText r q := by
  rw [performAll_eq, Recalls, performTotal_ask h]
  simp only [ofHistory, Verdicts.hits_ask, Verdicts.contains_after, List.mem_map,
    Verdicts.key_eq_iff]

theorem answer_eq (h : handle < (History.of requests).handles) :
    ((performAll destText srcText p requests).performTotal destText srcText p
        (.ask handle q.1 q.2)).1 =
      (((History.of requests).asked ++ [q]).find? fun r =>
        Verdicts.key destText srcText r.1 r.2 = Verdicts.key destText srcText q.1 q.2).map
          fun r => .ok (p r.1 r.2) := by
  rw [performAll_eq, performTotal_ask h]
  simp only [ofHistory, Verdicts.getElem?_after, List.find?_append]
  cases (History.of requests).asked.find? fun r =>
    Verdicts.key destText srcText r.1 r.2 = Verdicts.key destText srcText q.1 q.2 with
  | none => simp
  | some r => simp

/-- Where the texts decide about the verdict and no texts overlap, memory changes nothing. -/
theorem answer_of_separate (h : handle < (History.of requests).handles)
    (hsame : ∀ r ∈ (History.of requests).asked, Verdicts.SameTexts destText srcText r q →
      p r.1 r.2 = p q.1 q.2)
    (hapart : ∀ r ∈ (History.of requests).asked, ¬ Verdicts.Overlapping destText srcText r q) :
    ((performAll destText srcText p requests).performTotal destText srcText p
      (.ask handle q.1 q.2)).1 = some (.ok (p q.1 q.2)) := by
  rw [answer_eq h]
  cases hfind : ((History.of requests).asked ++ [q]).find? fun r =>
      Verdicts.key destText srcText r.1 r.2 = Verdicts.key destText srcText q.1 q.2 with
  | none => simp at hfind
  | some r =>
    have hkey : Verdicts.key destText srcText r.1 r.2 = Verdicts.key destText srcText q.1 q.2 := by
      simpa using List.find?_some hfind
    rcases List.mem_append.1 (List.mem_of_find?_eq_some hfind) with hr | hr
    · have htexts := (Verdicts.key_eq_iff.1 hkey).resolve_right (hapart r hr)
      rw [Option.map_some, hsame r hr htexts]
    · rw [List.mem_singleton.1 hr, Option.map_some]

/-- A question is answered from memory if and only if one with the same texts, or with texts that
overlap its own, was asked through some handle since the last time that all was cleared; and then
with the verdict on that one. Only texts that overlap can let questions share a verdict that are not
written alike. -/
theorem memory_answers (destText : δ → String) (srcText : σ → String) (p : δ → σ → Bool) :
    (∀ (requests : List (Request δ σ)) (handle : Nat) (q : δ × σ),
      handle < (History.of requests).handles →
        let asked := (History.of requests).asked
        let hs := performAll destText srcText p requests
        let answer := (hs.performTotal destText srcText p (.ask handle q.1 q.2)).1
        (Recalls destText srcText p hs handle q ↔
            ∃ r ∈ asked, Verdicts.SameTexts destText srcText r q ∨
              Verdicts.Overlapping destText srcText r q) ∧
          answer = ((asked ++ [q]).find? fun r =>
            Verdicts.key destText srcText r.1 r.2 = Verdicts.key destText srcText q.1 q.2).map
              (fun r => .ok (p r.1 r.2)) ∧
          ((∀ r ∈ asked, Verdicts.SameTexts destText srcText r q → p r.1 r.2 = p q.1 q.2) →
            (∀ r ∈ asked, ¬ Verdicts.Overlapping destText srcText r q) →
              answer = some (.ok (p q.1 q.2)))) ∧
      ((∀ (requests : List (Request δ σ)) (handle : Nat) (q : δ × σ),
          handle < (History.of requests).handles →
            Recalls destText srcText p (performAll destText srcText p requests) handle q →
              ∃ r ∈ (History.of requests).asked, Verdicts.SameTexts destText srcText r q) ↔
        ∀ q r : δ × σ, ¬ Verdicts.Overlapping destText srcText q r) ∧
      ((∀ d, '|' ∉ (destText d).toList) ∨ (∀ s, '|' ∉ (srcText s).toList) →
        ∀ q r : δ × σ, ¬ Verdicts.Overlapping destText srcText q r) := by
  refine ⟨?_, ⟨?_, ?_⟩, Verdicts.not_overlapping_of_no_bar⟩
  · intro requests handle q h
    exact ⟨recalls_iff h, answer_eq h, answer_of_separate h⟩
  · intro hclaim q r hover
    have hmade : 0 < (History.of [Request.ask 0 q.1 q.2]).handles := Nat.one_pos
    have hrecalls := (recalls_iff (p := p) hmade).2 ⟨q, List.mem_singleton_self q, .inr hover⟩
    obtain ⟨q', hq', htexts⟩ := hclaim _ 0 r hmade hrecalls
    obtain rfl := List.mem_singleton.1 hq'
    exact htexts.not_overlapping hover
  · intro hapart requests handle q h hrecalls
    obtain ⟨r, hr, halike⟩ := (recalls_iff h).1 hrecalls
    exact ⟨r, hr, halike.resolve_right (hapart r q)⟩

end Perform

/-- Asked again, through a copy. -/
theorem memory_answers_copy :
    let hs := performAll id id (fun a b : String => a == b) [.ask 0 "a" "b", .copy 0]
    Recalls id id (fun a b : String => a == b) hs 1 ("a", "b") ∧
      (hs.performTotal id id (fun a b : String => a == b) (.ask 1 "a" "b")).1 =
        some (.ok false) := by
  obtain ⟨hanswers, _⟩ := memory_answers id id (fun a b : String => a == b)
  obtain ⟨hrecalls, _, hseparate⟩ := hanswers [.ask 0 "a" "b", .copy 0] 1 ("a", "b") (by decide)
  have hasked : ∀ r ∈ (History.of [Request.ask 0 "a" "b", .copy 0]).asked, r = ("a", "b") :=
    fun r hr => List.mem_singleton.1 hr
  refine ⟨hrecalls.2 ⟨("a", "b"), List.mem_singleton_self _, .inl ⟨rfl, rfl⟩⟩, hseparate ?_ ?_⟩
  · rintro r hr -
    rw [hasked r hr]
  · intro r hr
    rw [hasked r hr]
    exact Verdicts.SameTexts.not_overlapping ⟨rfl, rfl⟩

/-- A bar inside a text is taken for the bar between the texts. -/
theorem memory_answers_unlike :
    let hs := performAll id id (fun a b : String => a == b) [.ask 0 "a|b" "a|b"]
    Recalls id id (fun a b : String => a == b) hs 0 ("a", "b|a|b") ∧
      (∀ r ∈ (History.of [Request.ask 0 "a|b" "a|b"]).asked,
        ¬ Verdicts.SameTexts id id r ("a", "b|a|b")) ∧
      (hs.performTotal id id (fun a b : String => a == b) (.ask 0 "a" "b|a|b")).1 =
        some (.ok true) ∧
      ("a" == "b|a|b") = false := by
  have hmade : 0 < (History.of [Request.ask 0 "a|b" "a|b"]).handles := Nat.one_pos
  have hover : Verdicts.Overlapping id id ("a|b", "a|b") ("a", "b|a|b") :=
    .inr ⟨"b", by decide, by decide⟩
  refine ⟨?_, ?_, ?_, by decide⟩
  · exact (recalls_iff hmade).2 ⟨_, List.mem_singleton_self _, .inr hover⟩
  · intro r hr hsame
    rw [List.mem_singleton.1 hr] at hsame
    exact hsame.not_overlapping hover
  · rw [answer_eq hmade (q := ("a", "b|a|b"))]
    decide

end Handles

end SeqAlign
