import Mathlib.Data.Prod.Lex
import SeqAlign.Proofs.Text.Reading
import SeqAlign.Proofs.Text.Stops

/-!
# SeqAlign.Proofs.Text.ReportOrder

Reports come in the order of the text.

* `extent`: the line breaks of a text and what is behind the last one. A longer text has a larger
  extent (`extent_mono`), so the location behind it is no earlier, as long as both can be written
  (`noLater_past_origin`).
* `Scanner.Fronts`: what is in front of each token that will be taken. A scanner has such pieces of
  its text (`Between.exists_fronts`), so the tokens are at locations in order (`upcoming_ordered`).
* `Parsing.InOrder`: the reports so far are about tokens of the text, one behind the other, and none
  about a token further on than the next one. What a parser does keeps this (`Orderly.take`,
  `Orderly.report`), and so reading a sequence does (`Orderly.sequence`).
* `reports_in_order`: the reports about a text are about its tokens, in their order, and come behind
  those that were filed before. Only an end of input in column 2 ^ 32 is written as an earlier
  location (`reports_out_of_order_wide`).
-/

namespace SeqAlign.Text

/-- The order of lines and columns as they are written. -/
def Location.NoLater (loc loc' : Location) : Prop :=
  loc.line < loc'.line ∨ loc.line = loc'.line ∧ loc.column ≤ loc'.column

theorem Location.NoLater.refl (loc : Location) : loc.NoLater loc := .inr ⟨rfl, UInt32.le_refl _⟩

/-- A line feed behind a carriage return is no line break of its own. -/
theorem lineBreaks_concat (cs : List Char) (c : Char) :
    lineBreaks (cs ++ [c]) =
      lineBreaks cs + if breaksLine c ∧ ¬(cs.getLast? = some '\r' ∧ c = '\n') then 1 else 0 := by
  fun_induction lineBreaks cs with
  | case1 => simp [lineBreaks]
  | case2 cs ih =>
    rw [List.cons_append, List.cons_append, lineBreaks, ih]
    cases cs <;> simp [Nat.add_right_comm]
  | case3 x cs hpair ih =>
    cases cs with
    | nil =>
      by_cases hx : x = '\r' ∧ c = '\n'
      · obtain ⟨rfl, rfl⟩ := hx
        rfl
      · rw [List.cons_append, lineBreaks.eq_3]
        · simp [lineBreaks, hx, Nat.add_comm]
        · rintro tail rfl htail
          exact hx ⟨rfl, (List.cons.inj htail).1⟩
    | cons y cs =>
      rw [List.cons_append, lineBreaks.eq_3, ih]
      · simp [Nat.add_right_comm]
      · rintro tail rfl htail
        obtain ⟨rfl, _⟩ := List.cons.inj htail
        exact hpair cs rfl rfl

theorem sinceBreak_concat (cs : List Char) (c : Char) :
    sinceBreak (cs ++ [c]) = if breaksLine c then 0 else sinceBreak cs + 1 := by
  by_cases hc : breaksLine c <;> simp [sinceBreak, hc]

theorem sinceBreak_of_getLast? {cs : List Char} (h : cs.getLast? = some '\r') :
    sinceBreak cs = 0 := by
  obtain ⟨cs, rfl⟩ := List.getLast?_eq_some_iff.1 h
  rw [sinceBreak_concat, if_pos (by rfl)]

/-- How many line breaks a text has, and how much of it is behind the last one. -/
def extent (cs : List Char) : ℕ ×ₗ ℕ := toLex (lineBreaks cs, sinceBreak cs)

theorem extent_le_concat (cs : List Char) (c : Char) : extent cs ≤ extent (cs ++ [c]) := by
  rw [Prod.Lex.le_iff]
  simp only [extent, ofLex_toLex]
  rw [lineBreaks_concat, sinceBreak_concat]
  by_cases hbreak : breaksLine c = true
  · by_cases hpair : cs.getLast? = some '\r' ∧ c = '\n'
    · simp [hpair, sinceBreak_of_getLast? hpair.1]
    · simp [hbreak, hpair]
  · simp [hbreak]

theorem extent_mono {cs cs' : List Char} (h : cs <+: cs') : extent cs ≤ extent cs' := by
  obtain ⟨ds, rfl⟩ := h
  induction ds generalizing cs with
  | nil => rw [List.append_nil]
  | cons d ds ih =>
    have hrest : extent (cs ++ [d]) ≤ extent (cs ++ [d] ++ ds) := ih
    rw [List.append_assoc] at hrest
    exact (extent_le_concat cs d).trans hrest

theorem noLater_past_origin {cs cs' : List Char} (h : cs <+: cs')
    (hbehind : (Location.origin.past cs).Behind cs)
    (hbehind' : (Location.origin.past cs').Behind cs') :
    (Location.origin.past cs).NoLater (Location.origin.past cs') := by
  have hextent := Prod.Lex.le_iff.1 (extent_mono h)
  simp only [extent, ofLex_toLex] at hextent
  rw [Location.NoLater, UInt32.lt_iff_toNat_lt, UInt32.le_iff_toNat_le, ← UInt32.toNat_inj,
    hbehind.line, hbehind.column, hbehind'.line, hbehind'.column]
  omega

theorem lineBreaks_lt {cs : List Char} {c : Char} (h : c ∈ cs) (hc : breaksLine c = false) :
    lineBreaks cs < cs.length := by
  fun_induction lineBreaks cs with
  | case1 => cases h
  | case2 cs _ =>
    have hle := lineBreaks_le cs
    simp only [List.length_cons]
    omega
  | case3 x cs _ ih =>
    have hle := lineBreaks_le cs
    rw [List.length_cons]
    split
    case isTrue hx =>
      rcases List.mem_cons.1 h with rfl | htail
      · exact absurd hx (Bool.eq_false_iff.1 hc)
      · exact Nat.succ_lt_succ (ih htail)
    case isFalse => exact Nat.lt_succ_of_le hle

namespace Scanner

variable {s : Scanner} {before rest : List Char}

/-- So much of the text is in front of each token. Every piece begins with those before. At the end
of input it is the whole text, and otherwise the token is still to come. -/
structure Fronts (s : Scanner) (text : List Char) (front : Nat → List Char) : Prop where
  location : ∀ k, (s.upcoming k).location = .past .origin (front k)
  succ : ∀ k, front k <+: front (k + 1)
  ended : ∀ k, (s.upcoming k).kind = .endOfInput → front k = text
  inside : ∀ k, (s.upcoming k).kind ≠ .endOfInput →
    ∃ c cs, text = front k ++ c :: cs ∧ breaksLine c = false

section Fronts

variable {text : List Char} {front : Nat → List Char}

theorem Fronts.mono (h : s.Fronts text front) {i j : Nat} (hij : i ≤ j) : front i <+: front j := by
  induction hij with
  | refl => exact List.prefix_rfl
  | step _ ih => exact ih.trans (h.succ _)

theorem Fronts.behind (h : s.Fronts text front) (hlength : text.length < UInt32.size) {k : Nat}
    (hk : (s.upcoming k).kind ≠ .endOfInput) :
    (Location.origin.past (front k)).Behind (front k) := by
  obtain ⟨c, cs, htext, _⟩ := h.inside k hk
  rw [htext, List.length_append, List.length_cons] at hlength
  exact Location.behind_past_origin (by omega)

end Fronts

theorem Between.exists_fronts (h : s.Between before rest) :
    ∃ front, s.Fronts (before ++ rest) front ∧ before <+: front 0 := by
  -- by induction on the text that is left
  induction hn : rest.length using Nat.strongRecOn generalizing s before rest with
  | ind n ih =>
    rcases readToken_takes s.text s.location with ⟨_, hblank⟩ | ⟨gap, lexeme, hr⟩
    · have hends : s.Ends (.past .origin (before ++ rest)) := ⟨h.queue, h.past ▸ hblank⟩
      refine ⟨fun _ => before ++ rest, ⟨fun k => ?_, fun _ => List.prefix_rfl, fun _ _ => rfl,
        fun k hk => ?_⟩, List.prefix_append _ _⟩
      · rw [hends.upcoming]
        rfl
      · rw [hends.upcoming] at hk
        exact absurd rfl hk
    · obtain ⟨hlocated, hnext⟩ := h.advance hr
      obtain ⟨c, cs, rfl⟩ := List.exists_cons_of_ne_nil hr.nonempty
      have hrest : rest = gap ++ (c :: cs) ++ (readToken s.text s.location).rest :=
        h.text.symm.trans hr.text_eq
      have hlength := congrArg List.length hrest
      simp only [List.length_append, List.length_cons] at hlength
      obtain ⟨front, hfront, hzero⟩ := ih _ (by omega) hnext rfl
      have hwhole : before ++ gap ++ (c :: cs) ++ (readToken s.text s.location).rest =
          before ++ rest := by
        rw [hrest]
        simp only [List.append_assoc]
      have hkind : s.current.kind ≠ .endOfInput := by
        rw [current_of_queue_eq_nil h.queue]
        exact hr.lexed.kind_ne
      rw [hwhole] at hfront
      refine ⟨fun k => k.casesOn (before ++ gap) front, ⟨?_, ?_, ?_, ?_⟩, List.prefix_append _ _⟩
      · rintro (_ | k)
        · exact hlocated
        · exact hfront.location k
      · rintro (_ | k)
        · exact (List.prefix_append _ _).trans hzero
        · exact hfront.succ k
      · rintro (_ | k) hk
        · exact absurd hk hkind
        · exact hfront.ended k hk
      · rintro (_ | k) hk
        · have htext : before ++ rest =
              before ++ gap ++ c :: (cs ++ (readToken s.text s.location).rest) := by
            rw [← hwhole]
            simp only [List.append_assoc, List.cons_append]
          exact ⟨c, _, htext, hr.unbroken c List.mem_cons_self⟩
        · exact hfront.inside k hk

theorem upcoming_mem_drain (h : s.queue = []) (k : Nat) : s.upcoming k ∈ s.drain.1 := by
  obtain ⟨ts, loc, hdrain, _, hupcoming⟩ := exists_stream h
  rw [hdrain, hupcoming]
  by_cases hk : k < ts.length
  · simp [hk]
  · simp [List.getElem?_eq_none (Nat.le_of_not_lt hk)]

theorem upcoming_of_endOfInput (h : s.queue = []) {i j : Nat} (hij : i ≤ j)
    (hend : (s.upcoming i).kind = .endOfInput) : s.upcoming j = s.upcoming i := by
  obtain ⟨ts, loc, _, hts, hupcoming⟩ := exists_stream h
  have hi : ts.length ≤ i := by
    by_contra hlt
    rw [hupcoming, List.getElem?_eq_getElem (Nat.lt_of_not_le hlt)] at hend
    exact hts _ (List.getElem_mem _) hend
  rw [hupcoming, hupcoming, List.getElem?_eq_none hi, List.getElem?_eq_none (hi.trans hij)]

end Scanner

/-- The end of input is no earlier than the other tokens as long as its column can be written. There
is a byte of a token in front of it, so its line can. -/
theorem upcoming_ordered (text : String) (h : text.length < UInt32.size) {i j : Nat} (hij : i ≤ j)
    (hend : ((Scanner.ofText text).upcoming j).kind = .endOfInput →
      1 + sinceBreak text.toList < UInt32.size) :
    ((Scanner.ofText text).upcoming i).location.NoLater
      ((Scanner.ofText text).upcoming j).location := by
  have hstart : (Scanner.ofText text).Between [] text.toList := ⟨rfl, rfl, rfl, nofun⟩
  obtain ⟨front, hfront, _⟩ := hstart.exists_fronts
  rw [List.nil_append] at hfront
  rw [← String.length_toList] at h
  by_cases hi : ((Scanner.ofText text).upcoming i).kind = .endOfInput
  · rw [Scanner.upcoming_of_endOfInput rfl hij hi]
    exact .refl _
  · have hbehind : (Location.origin.past (front j)).Behind (front j) := by
      by_cases hj : ((Scanner.ofText text).upcoming j).kind = .endOfInput
      · obtain ⟨c, cs, htext, hc⟩ := hfront.inside i hi
        have hlines : lineBreaks text.toList < text.toList.length :=
          lineBreaks_lt (htext ▸ List.mem_append_right _ List.mem_cons_self) hc
        rw [hfront.ended j hj]
        exact Location.behind_of_lt (by omega) (hend hj)
      · exact hfront.behind h hj
    rw [hfront.location, hfront.location]
    exact noLater_past_origin (hfront.mono hij) (hfront.behind h hi) hbehind

/-! ## Reports in order -/

namespace Parsing

variable {nth : Nat → Token} {before : List Report} {p q : Parsing}

/-- So many of these tokens have been taken, and the reports that have come behind those before are
about the tokens at these indices. -/
structure InOrder (nth : Nat → Token) (before : List Report) (p : Parsing) (taken : Nat)
    (filed : List Report) (indices : List Nat) : Prop where
  upcoming : ∀ k, p.upcoming k = nth (taken + k)
  reports : p.diagnostics.reports = before ++ filed
  subjects : filed.map Report.subject = indices.map nth
  ordered : indices.Pairwise (· ≤ ·)
  le_taken : ∀ i ∈ indices, i ≤ taken

theorem InOrder.pairwise {taken : Nat} {filed : List Report} {indices : List Nat}
    (h : InOrder nth before p taken filed indices) (R : Token → Token → Prop)
    (hR : ∀ {i j}, i ≤ j → R (nth i) (nth j)) :
    filed.Pairwise fun r r' => R r.subject r'.subject := by
  have hsubjects : (filed.map Report.subject).Pairwise R := by
    rw [h.subjects]
    exact List.pairwise_map.2 (h.ordered.imp hR)
  exact List.pairwise_map.1 hsubjects

/-- The reports behind those before are about some of these tokens, in their order. -/
def Orderly (nth : Nat → Token) (before : List Report) (p : Parsing) : Prop :=
  ∃ taken filed indices, InOrder nth before p taken filed indices

namespace Orderly

theorem take (h : Orderly nth before p) {k : Nat} (htakes : p.scanner.Takes k q.scanner)
    (hsilent : q.diagnostics = p.diagnostics) : Orderly nth before q := by
  obtain ⟨taken, filed, indices, h⟩ := h
  refine ⟨taken + k, filed, indices, fun j => ?_, hsilent ▸ h.reports, h.subjects, h.ordered,
    fun i hi => Nat.le_add_right_of_le (h.le_taken i hi)⟩
  rw [Parsing.upcoming, htakes.upcoming, Nat.add_assoc]
  exact h.upcoming (k + j)

theorem report (h : Orderly nth before p) {r : Report} {i k : Nat}
    (hsubject : r.subject = p.upcoming i) (hi : i ≤ k) (htakes : p.scanner.Takes k q.scanner)
    (hfiled : q.diagnostics = p.diagnostics.file r) : Orderly nth before q := by
  obtain ⟨taken, filed, indices, h⟩ := h
  refine ⟨taken + k, filed ++ [r], indices ++ [taken + i], fun j => ?_, ?_, ?_, ?_, ?_⟩
  · rw [Parsing.upcoming, htakes.upcoming, Nat.add_assoc]
    exact h.upcoming (k + j)
  · rw [hfiled, Diagnostics.reports_file, h.reports, List.append_assoc]
  · rw [List.map_append, List.map_append, h.subjects, List.map_singleton, List.map_singleton,
      hsubject, h.upcoming]
  · refine List.pairwise_append.2 ⟨h.ordered, List.pairwise_singleton _ _, ?_⟩
    intro j hj last hlast
    obtain rfl := List.mem_singleton.1 hlast
    exact Nat.le_add_right_of_le (h.le_taken j hj)
  · intro j hj
    rcases List.mem_append.1 hj with hj | hj
    · exact Nat.le_add_right_of_le (h.le_taken j hj)
    · obtain rfl := List.mem_singleton.1 hj
      exact Nat.add_le_add_left hi taken

theorem look (h : Orderly nth before p) : Orderly nth before p.look :=
  h.take (.look p.scanner) rfl

theorem advance (h : Orderly nth before p) : Orderly nth before p.advance :=
  h.take (.advance p.scanner) rfl

theorem item (h : Orderly nth before p) : Orderly nth before p.item.2 := by
  have htries := tries_item p
  generalize p.item = o at htries
  cases htries with
  | read hq => exact h.advance.take hq.takes hq.silent
  | @fail report q n i hq hi hsubject =>
    rw [Nat.add_comm] at hi
    exact h.report hsubject hi ((Scanner.Takes.advance p.scanner).trans hq.takes) hq.silent

theorem items (h : Orderly nth before p) : Orderly nth before p.items.2 := by
  fun_induction Parsing.items p with
  | case1 p _ => exact h.look
  | case2 p _ _ ih => exact ih h.look.advance
  | case3 p _ _ first rest ih => exact ih h.item

theorem closeSequence (opening : Token) (h : Orderly nth before p) :
    Orderly nth before (p.closeSequence opening) := by
  simp only [Parsing.closeSequence, current_look, advance_look]
  split
  · exact h.advance
  · exact h.report rfl (Nat.le_refl 0) (.look p.scanner) rfl

theorem rejectRest (h : Orderly nth before p) : Orderly nth before p.rejectRest := by
  fun_induction Parsing.rejectRest p with
  | case1 p _ => exact h.look
  | case2 p _ complaint ih =>
    rw [advance_look] at ih ⊢
    exact ih (h.report rfl (Nat.zero_le 1) (.advance p.scanner) rfl)

theorem sequence (h : Orderly nth before p) : Orderly nth before p.sequence.2 := by
  by_cases ho : p.current.kind = .openBracket
  · rw [sequence_bracketed ho]
    exact (h.advance.items.closeSequence p.current).rejectRest
  · rw [sequence_bare ho]
    exact h.look.items.rejectRest

end Orderly

/-- The stray byte does not stop the items, and there is no bracket that closes them. -/
theorem reports_of_stray (hopen : p.current.kind = .openBracket)
    (hstray : p.advance.current.kind = .undefined)
    (hend : p.advance.advance.current.kind = .endOfInput) :
    p.sequence.2.diagnostics.reports =
      p.diagnostics.reports ++ [.about .strayByte p.advance.current,
        (Report.about .expectedCloseBracket p.advance.advance.current).seeing p.current] := by
  let q : Parsing := p.advance.advance.file (.about .strayByte p.advance.current)
  have hq : q.current.kind = .endOfInput := hend
  have hitem : p.advance.item = (none, q.look) := by
    have hskip : q.toItemEnd = q.look := by rw [toItemEnd_eq, hq, if_pos (by rfl)]
    simp only [item, current_look, advance_look, hstray, Token.isUndefined]
    exact congrArg (Prod.mk none) hskip
  have hitems : p.advance.items.2 = q.look.look := by
    have hrest : q.look.items = ([], q.look.look) :=
      items_of_nil (by rw [ahead_look, ahead_of_end hq])
    rw [items, dif_neg (by simp [hstray]), if_neg (by rw [hstray]; decide), hitem]
    exact congrArg Prod.snd hrest
  let r : Report := (Report.about .expectedCloseBracket q.current).seeing p.current
  have hclose : q.look.look.closeSequence p.current = q.look.look.look.file r := by
    simp only [closeSequence, current_look, hq]
    rfl
  have hnothing : (q.look.look.look.file r).ahead = [] := by
    change q.look.look.look.ahead = []
    rw [ahead_look, ahead_look, ahead_look, ahead_of_end hq]
  have hfirst : q.look.look.look.diagnostics.reports = _ := Diagnostics.reports_file p.diagnostics _
  rw [sequence_bracketed hopen, hitems, hclose, rejectRest_of_nil hnothing]
  refine (Diagnostics.reports_file _ r).trans ?_
  rw [hfirst, List.append_assoc]
  rfl

end Parsing

theorem skipBlanks_spaces (n : Nat) (loc : Location) :
    skipBlanks (List.replicate n ' ') loc = ([], loc.right n) := by
  induction n generalizing loc with
  | zero => simp [skipBlanks, Location.right]
  | succ n ih =>
    rw [List.replicate_succ, skipBlanks.eq_3 _ _ _ (by rintro _ hc; cases hc)]
    rw [if_neg (by decide), if_pos (by decide), ih, Location.right_right, Nat.add_comm]

theorem readToken_single {c : Char} (hblank : isBlank c = false) (hbreak : breaksLine c = false)
    (hcontinues : (TokenKind.ofFirst c).continues = fun _ => false) (cs : List Char)
    (loc : Location) :
    readToken (c :: cs) loc = ⟨⟨.ofFirst c, String.ofList [c], loc⟩, cs, loc.right 1⟩ := by
  have hskip : skipBlanks (c :: cs) loc = (c :: cs, loc) := by
    rw [skipBlanks.eq_3 _ _ _ (by rintro _ rfl; cases hbreak)]
    simp only [hblank, hbreak, Bool.false_eq_true, if_false]
  have hdrop : cs.dropWhile (fun _ => false) = cs := by cases cs <;> rfl
  rw [readToken_of_cons hskip, hcontinues, takeWhile_never, hdrop]
  rfl

theorem reports_stray_spaces (n : Nat) (d : Diagnostics) :
    (parse (String.ofList ('[' :: '$' :: List.replicate n ' ')) d).2.reports = d.reports ++
      [.about .strayByte ⟨.undefined, "$", Location.origin.right 1⟩,
        (Report.about .expectedCloseBracket (.endOfInput (Location.origin.right (2 + n)))).seeing
          ⟨.openBracket, "[", .origin⟩] := by
  let p : Parsing := ⟨⟨'[' :: '$' :: List.replicate n ' ', .origin, [], false⟩, d⟩
  have hopen : p.scanner.next = (⟨.openBracket, "[", .origin⟩,
      ⟨'$' :: List.replicate n ' ', Location.origin.right 1, [], false⟩) := by
    change p.scanner.read = _
    rw [Scanner.read, readToken_single rfl rfl rfl]
    rfl
  have hstray : p.advance.scanner.next = (⟨.undefined, "$", Location.origin.right 1⟩,
      ⟨List.replicate n ' ', Location.origin.right 2, [], true⟩) := by
    rw [show p.advance.scanner = p.scanner.next.2 from rfl, hopen]
    change Scanner.read _ = _
    rw [Scanner.read, readToken_single rfl rfl rfl]
    rfl
  have hend : p.advance.advance.current = .endOfInput (Location.origin.right (2 + n)) := by
    rw [show p.advance.advance.current = p.advance.scanner.next.2.current from rfl, hstray,
      Scanner.current_of_queue_eq_nil rfl, readToken_of_nil (skipBlanks_spaces n _),
      Location.right_right]
  have hcurrent : p.current = ⟨.openBracket, "[", .origin⟩ := congrArg Prod.fst hopen
  have hnext : p.advance.current = ⟨.undefined, "$", Location.origin.right 1⟩ :=
    congrArg Prod.fst hstray
  have hreports := Parsing.reports_of_stray (congrArg Token.kind hcurrent)
    (congrArg Token.kind hnext) (congrArg Token.kind hend)
  rw [hcurrent, hnext, hend] at hreports
  rw [parse, Scanner.ofText, String.toList_ofList]
  exact hreports

/-- The reports about a text come behind those that were filed before. Each is about a token of the
text, and none about a token in front of that of the one before. Lines and columns show that as they
are written, but for an end of input whose column is too high for 32 bits. Behind a report about the
end of input there are only such reports. -/
theorem reports_in_order (text : String) (d : Diagnostics) (h : text.length < UInt32.size) :
    ∃ filed : List Report,
      (parse text d).2.reports = d.reports ++ filed ∧ (∀ r ∈ filed, r.subject ∈ scan text) ∧
        (1 + sinceBreak text.toList < UInt32.size →
          filed.Pairwise fun r r' => r.subject.location.NoLater r'.subject.location) ∧
        (filed.Pairwise fun r r' =>
          r'.subject.kind ≠ .endOfInput → r.subject.location.NoLater r'.subject.location) ∧
        filed.Pairwise fun r r' =>
          r.subject.kind = .endOfInput → r'.subject = r.subject := by
  have hstart : Parsing.Orderly (Scanner.ofText text).upcoming d.reports ⟨.ofText text, d⟩ :=
    ⟨0, [], [], fun k => congrArg _ (Nat.zero_add k).symm, (List.append_nil _).symm, rfl, .nil,
      nofun⟩
  obtain ⟨taken, filed, indices, hfiled⟩ := hstart.sequence
  refine ⟨filed, hfiled.reports, fun r hr => ?_, fun hnarrow => ?_, ?_, ?_⟩
  · have hsubject : r.subject ∈ indices.map (Scanner.ofText text).upcoming :=
      hfiled.subjects ▸ List.mem_map_of_mem hr
    obtain ⟨i, _, hi⟩ := List.mem_map.1 hsubject
    exact hi ▸ Scanner.upcoming_mem_drain rfl i
  · exact hfiled.pairwise (fun t t' => t.location.NoLater t'.location)
      fun hij => upcoming_ordered text h hij fun _ => hnarrow
  · exact hfiled.pairwise
      (fun t t' => t'.kind ≠ .endOfInput → t.location.NoLater t'.location)
      fun hij hkind => upcoming_ordered text h hij fun hend => absurd hend hkind
  · exact hfiled.pairwise (fun t t' => t.kind = .endOfInput → t' = t)
      fun hij => Scanner.upcoming_of_endOfInput rfl hij

/-- The third report of this text is about the first bound. -/
theorem reports_in_order_inverted_bounds :
    let text := "[$a\x7b+\x7d;\r\nb \x7b2 : 1\x7d;]c"
    text.length < UInt32.size ∧
      ∃ filed : List Report,
        (parse text .empty).2.reports = Diagnostics.empty.reports ++ filed ∧
          (∀ r ∈ filed, r.subject ∈ scan text) ∧
          filed.Pairwise (fun r r' => r.subject.location.NoLater r'.subject.location) ∧
          filed[2]? = some (.about .invertedBounds ⟨.integer, "2", ⟨2, 4⟩⟩) := by
  intro text
  have hlength : text.length < UInt32.size := by decide
  obtain ⟨filed, hfiled, hsubjects, hordered, _⟩ := reports_in_order text .empty hlength
  refine ⟨hlength, filed, hfiled, hsubjects, hordered (by decide), ?_⟩
  have hreports : filed = (parse text .empty).2.reports := hfiled.symm
  rw [hreports]
  decide +kernel

/-- In a text of 2 ^ 32 - 1 bytes without a line break the column of the end of input is written
as 0. -/
theorem reports_out_of_order_wide :
    let text := String.ofList ('[' :: '$' :: List.replicate 4294967293 ' ')
    text.length < UInt32.size ∧
      (parse text .empty).2.reports.map (fun r => r.subject.location) = [⟨1, 2⟩, ⟨1, 0⟩] ∧
      ¬ ∃ filed : List Report, (parse text .empty).2.reports = Diagnostics.empty.reports ++ filed ∧
        filed.Pairwise fun r r' => r.subject.location.NoLater r'.subject.location := by
  intro text
  have hlocations : (parse text .empty).2.reports.map (fun r => r.subject.location) =
      [⟨1, 2⟩, ⟨1, 0⟩] := by
    rw [reports_stray_spaces 4294967293 .empty]
    rfl
  refine ⟨?_, hlocations, ?_⟩
  · rw [String.length_ofList, List.length_cons, List.length_cons, List.length_replicate]
    decide
  · rintro ⟨filed, hfiled, hordered⟩
    obtain rfl : (parse text .empty).2.reports = filed := hfiled
    have hwritten := List.pairwise_map.2 hordered
    rw [hlocations] at hwritten
    have hback : Location.NoLater ⟨1, 2⟩ ⟨1, 0⟩ :=
      List.rel_of_pairwise_cons hwritten List.mem_cons_self
    exact absurd hback (by simp [Location.NoLater])

end SeqAlign.Text
