import SimpleHttpServer.Log.Formatter
import Mathlib.Data.List.Pairwise

/-! Where in a pattern the items come from.

The outer loop of `init` collects plain text and puts it into the list when it
completes a directive or ends. The marker of a directive whose brace is not closed
is put into the list at once, ahead of text that is still being collected. Here
every entry of the list carries the position of the pattern its text begins at. -/
namespace SimpleHttpServer.LogFormatter

/-- A `%` that no `%` follows. -/
def startsDirective (p : List Char) (i : ℕ) : Bool := p[i]? == some '%' && p[i + 1]? != some '%'

/-- The inner loop for a directive at `i`. -/
def directiveScan (p : List Char) (i : ℕ) : Scan :=
  scan p i (p.length - (i + 1)) ⟨i + 1, false, 0, [], []⟩

/-- A directive whose opening brace is not closed starts here. -/
def unclosed (p : List Char) (i : ℕ) : Bool := startsDirective p i && (directiveScan p i).inBrace

/-- A directive that is read to its end starts here. -/
def complete (p : List Char) (i : ℕ) : Bool := startsDirective p i && !(directiveScan p i).inBrace

/-- Where the outer loop goes on: behind a complete directive, or at the next character. -/
def next (p : List Char) (i : ℕ) : ℕ := if complete p i then (directiveScan p i).n else i + 1

/-- The positions at which the outer loop finds itself. -/
def visited (p : List Char) : ℕ → ℕ → List ℕ
  | 0, _ => []
  | fuel + 1, i => if i < p.length then i :: visited p fuel (next p i) else []

/-- Text that is being collected, with the position it begins at. -/
abbrev Pending := Option (ℕ × List Char)

def Pending.text (pend : Pending) : List Char := (pend.map Prod.snd).getD []

def Pending.add (pend : Pending) (i : ℕ) (c : Char) : Pending :=
  some ((pend.map Prod.fst).getD i, pend.text ++ [c])

def Pending.flush (pend : Pending) : List (ℕ × Piece) :=
  (pend.map fun t => (t.1, ⟨t.2, [], false⟩)).toList

/-- The entries from here on with the positions their text begins at. -/
def located (p : List Char) : ℕ → ℕ → Pending → List (ℕ × Piece)
  | 0, _, pend => pend.flush
  | fuel + 1, i, pend =>
    match p[i]? with
    | none => pend.flush
    | some c =>
      let s := directiveScan p i
      if complete p i then
        pend.flush ++ (i, ⟨s.str, s.fmt, true⟩) :: located p fuel (next p i) none
      else if unclosed p i then
        (i, ⟨"<<pattern_error>>".toList, s.fmt, false⟩) :: located p fuel (i + 1) pend
      else located p fuel (i + 1) (pend.add i c)

/-! ### The same loop -/

/-- The inner loop never goes back. -/
theorem le_scan (p : List Char) (i fuel : ℕ) (s : Scan) : s.n ≤ (scan p i fuel s).n := by
  induction fuel generalizing s with
  | zero => exact Nat.le_refl _
  | succ fuel ih =>
    unfold scan
    split
    · exact Nat.le_refl _
    · split
      · exact Nat.le_refl _
      · split
        · refine Nat.le_trans ?_ (ih _)
          exact Nat.le_succ _
        · split
          · exact Nat.le_succ _
          · refine Nat.le_trans ?_ (ih _)
            dsimp only
            split <;> exact Nat.le_succ _

theorem lt_directiveScan (p : List Char) (i : ℕ) : i < (directiveScan p i).n :=
  le_scan p i _ ⟨i + 1, false, 0, [], []⟩

theorem lt_next (p : List Char) (i : ℕ) : i < next p i := by
  unfold next
  split
  · exact lt_directiveScan p i
  · exact Nat.lt_succ_self i

theorem next_of_not_complete {p : List Char} {i : ℕ} (h : ¬ complete p i = true) :
    next p i = i + 1 := if_neg h

theorem next_of_complete {p : List Char} {i : ℕ} (h : complete p i = true) :
    next p i = (directiveScan p i).n - 1 + 1 := by
  have hlt := lt_directiveScan p i
  rw [next, if_pos h]
  omega

/-- The turns of the outer loop: a complete directive, one that is not, and a plain character. -/
theorem pieces_succ {p : List Char} {fuel i : ℕ} {c : Char} (hc : p[i]? = some c) (r : Parse) :
    pieces p (fuel + 1) i r =
      pieces p fuel (next p i)
        (if complete p i then
          {r.flush with
            vec := r.flush.vec ++ [⟨(directiveScan p i).str, (directiveScan p i).fmt, true⟩]}
        else if unclosed p i then
          {r with
            error := true
            vec := r.vec ++ [⟨"<<pattern_error>>".toList, (directiveScan p i).fmt, false⟩]}
        else {r with nstr := r.nstr ++ [c]}) := by
  rw [pieces]
  simp only [hc]
  by_cases hstart : startsDirective p i = true
  · have hpercent : c = '%' := by simpa [startsDirective, hc] using (Bool.and_eq_true_iff.mp hstart).1
    have hescape : (p[i + 1]? == some '%') = false := by
      simpa [startsDirective] using (Bool.and_eq_true_iff.mp hstart).2
    subst hpercent
    rw [if_neg (by simp), hescape]
    show (if (directiveScan p i).inBrace = true then _ else _) = _
    cases hin : (directiveScan p i).inBrace
    · have hcomplete : complete p i = true := by simp [complete, hstart, hin]
      rw [if_pos hcomplete, next_of_complete hcomplete]
      rfl
    · have hcomplete : ¬ complete p i = true := by simp [complete, hin]
      have hunclosed : unclosed p i = true := by simp [unclosed, hstart, hin]
      rw [if_neg hcomplete, if_pos hunclosed, next_of_not_complete hcomplete]
      rfl
  · have hcomplete : ¬ complete p i = true := by simp [complete, hstart]
    have hunclosed : ¬ unclosed p i = true := by simp [unclosed, hstart]
    rw [if_neg hcomplete, if_neg hunclosed, next_of_not_complete hcomplete]
    by_cases hplain : c = '%'
    · have hescape : p[i + 1]? = some '%' := by simpa [startsDirective, hc, hplain] using hstart
      simp [hplain, hescape]
    · simp [hplain]

theorem flush_vec {r : Parse} {pend : Pending} (htext : pend.text = r.nstr)
    (hne : ∀ t ∈ pend, t.2 ≠ []) : r.flush.vec = r.vec ++ pend.flush.map Prod.snd := by
  cases pend with
  | none => simp [Parse.flush, ← htext, Pending.text, Pending.flush]
  | some t =>
    have hne := hne t rfl
    simp [Parse.flush, ← htext, Pending.text, Pending.flush, hne]

/-- The entries are those of `pieces`. -/
theorem pieces_located {p : List Char} {fuel i : ℕ} {r : Parse} {pend : Pending}
    (htext : pend.text = r.nstr) (hne : ∀ t ∈ pend, t.2 ≠ []) :
    (pieces p fuel i r).flush.vec = r.vec ++ (located p fuel i pend).map Prod.snd := by
  induction fuel generalizing i r pend with
  | zero => exact flush_vec htext hne
  | succ fuel ih =>
    cases hc : p[i]? with
    | none =>
      simp only [pieces, located, hc]
      exact flush_vec htext hne
    | some c =>
      rw [pieces_succ hc]
      simp only [located, hc]
      split
      case isTrue hcomplete =>
        have hflushed : r.flush.nstr = [] := by
          unfold Parse.flush
          split
          · exact List.isEmpty_iff.mp ‹_›
          · rfl
        have hrest := @ih (next p i) {r.flush with
          vec := r.flush.vec ++ [⟨(directiveScan p i).str, (directiveScan p i).fmt, true⟩]} none
          hflushed.symm (by simp)
        rw [hrest, flush_vec htext hne]
        simp
      case isFalse hcomplete =>
        rw [next_of_not_complete hcomplete]
        split
        · have hrest := @ih (i + 1) {r with
            error := true
            vec := r.vec ++ [⟨"<<pattern_error>>".toList, (directiveScan p i).fmt, false⟩]} pend
            htext hne
          rw [hrest]
          simp
        · have hadd : (pend.add i c).text = r.nstr ++ [c] := by simp [Pending.add, Pending.text, ← htext]
          exact @ih (i + 1) {r with nstr := r.nstr ++ [c]} (pend.add i c) hadd (by simp [Pending.add])

/-- The entries of a pattern, with the positions their texts begin at. -/
def entries (p : List Char) : List (ℕ × Piece) := located p p.length 0 none

/-- The items of a formatter, in order, are those of the entries. -/
theorem items_entries (p : List Char) :
    (new (String.ofList p)).items = (entries p).map fun e => e.2.item.1 := by
  have hvec := @pieces_located p p.length 0 ⟨[], [], false⟩ none rfl (by simp)
  show (init (String.ofList p)).1 = _
  simp only [init, String.toList_ofList, hvec, entries]
  simp [List.map_map, Function.comp_def]

/-! ### Errors -/

theorem flush_error (r : Parse) : r.flush.error = r.error := by
  unfold Parse.flush
  split <;> rfl

theorem visited_succ {p : List Char} {fuel i : ℕ} {c : Char} (hc : p[i]? = some c) :
    visited p (fuel + 1) i = i :: visited p fuel (next p i) := by
  rw [visited, if_pos (List.getElem?_eq_some_iff.mp hc).1]

theorem visited_none {p : List Char} {fuel i : ℕ} (hc : p[i]? = none) :
    visited p (fuel + 1) i = [] := by
  rw [visited, if_neg]
  have hle := List.getElem?_eq_none_iff.mp hc
  omega

theorem not_unclosed_of_complete {p : List Char} {i : ℕ} (h : complete p i = true) :
    unclosed p i = false := by
  unfold complete unclosed at *
  cases hin : (directiveScan p i).inBrace <;> simp_all

/-- A directive whose brace is not closed is an error. -/
theorem error_of_unclosed {p : List Char} {fuel i : ℕ} {r : Parse}
    (h : r.error = true ∨ ∃ j ∈ visited p fuel i, unclosed p j = true) :
    (pieces p fuel i r).error = true := by
  induction fuel generalizing i r with
  | zero => simpa [pieces, visited] using h
  | succ fuel ih =>
    cases hc : p[i]? with
    | none => simpa [pieces, hc, visited_none hc] using h
    | some c =>
      rw [visited_succ hc] at h
      rw [pieces_succ hc]
      refine ih ?_
      rcases h with herror | ⟨j, hj, hunclosed⟩
      · left
        split
        · exact (flush_error r).trans herror
        · split
          · rfl
          · exact herror
      · rcases List.mem_cons.mp hj with rfl | hj
        · left
          have hcomplete : ¬ complete p j = true := by
            intro hcomplete
            rw [not_unclosed_of_complete hcomplete] at hunclosed
            cases hunclosed
          rw [if_neg hcomplete, if_pos hunclosed]
        · exact .inr ⟨j, hj, hunclosed⟩

/-- Its marker is an entry. -/
theorem marker_mem {p : List Char} {fuel i j : ℕ} (pend : Pending) (hj : j ∈ visited p fuel i)
    (hunclosed : unclosed p j = true) :
    ∃ e ∈ located p fuel i pend, e.1 = j ∧ e.2.item.1 = .string "<<pattern_error>>" := by
  induction fuel generalizing i pend with
  | zero => cases hj
  | succ fuel ih =>
    cases hc : p[i]? with
    | none =>
      rw [visited_none hc] at hj
      cases hj
    | some c =>
      rw [visited_succ hc] at hj
      simp only [located, hc]
      rcases List.mem_cons.mp hj with rfl | hj
      · have hcomplete : ¬ complete p j = true := by
          intro hcomplete
          rw [not_unclosed_of_complete hcomplete] at hunclosed
          cases hunclosed
        rw [if_neg hcomplete, if_pos hunclosed]
        exact ⟨_, List.mem_cons_self .., rfl, rfl⟩
      · split
        case isTrue =>
          obtain ⟨e, he, hmarker⟩ := ih none hj
          exact ⟨e, List.mem_append_right _ (List.mem_cons_of_mem _ he), hmarker⟩
        case isFalse hcomplete =>
          rw [next_of_not_complete hcomplete] at hj
          split
          · obtain ⟨e, he, hmarker⟩ := ih pend hj
            exact ⟨e, List.mem_cons_of_mem _ he, hmarker⟩
          · exact ih (pend.add i c) hj

/-! ### Order -/

theorem mem_flush {pend : Pending} {e : ℕ × Piece} (he : e ∈ pend.flush) :
    ∃ t ∈ pend, e.1 = t.1 := by
  cases pend with
  | none => cases he
  | some t =>
    cases List.mem_singleton.mp he
    exact ⟨t, rfl, rfl⟩

/-- Text begins where it began, or here. -/
theorem mem_add {pend : Pending} {i : ℕ} {c : Char} {t : ℕ × List Char} (ht : t ∈ pend.add i c) :
    t.1 = i ∨ ∃ t' ∈ pend, t.1 = t'.1 := by
  cases ht
  cases pend with
  | none => exact .inl rfl
  | some t' => exact .inr ⟨t', rfl, rfl⟩

/-- Nothing that is read later begins before what is pending. -/
theorem le_of_mem_located {p : List Char} {fuel i k : ℕ} {pend : Pending} (hk : k ≤ i)
    (hpend : ∀ t ∈ pend, k ≤ t.1) {e : ℕ × Piece} (he : e ∈ located p fuel i pend) : k ≤ e.1 := by
  have hflush : e ∈ pend.flush → k ≤ e.1 := by
    intro he
    obtain ⟨t, ht, heq⟩ := mem_flush he
    rw [heq]
    exact hpend t ht
  induction fuel generalizing i pend with
  | zero => exact hflush he
  | succ fuel ih =>
    have hnone : ∀ {j}, i < j → e ∈ located p fuel j none → k ≤ e.1 := fun hj he =>
      ih (by omega) (by simp) he (fun he => by cases he)
    simp only [located] at he
    split at he
    · exact hflush he
    · split at he
      · rcases List.mem_append.mp he with he | he
        · exact hflush he
        · rcases List.mem_cons.mp he with rfl | he
          · exact hk
          · exact hnone (lt_next p i) he
      · split at he
        · rcases List.mem_cons.mp he with rfl | he
          · exact hk
          · exact ih (by omega) hpend he hflush
        · have hadd : ∀ c, ∀ t ∈ pend.add i c, k ≤ t.1 := by
            intro c t ht
            rcases mem_add ht with hi | ⟨t', ht', heq⟩
            · rw [hi]
              exact hk
            · rw [heq]
              exact hpend t' ht'
          refine ih (by omega) (hadd _) he fun he => ?_
          obtain ⟨t, ht, heq⟩ := mem_flush he
          rw [heq]
          exact hadd _ t ht

/-- What is pending becomes an entry. -/
theorem pending_mem {p : List Char} {fuel i : ℕ} {pend : Pending} {t : ℕ × List Char}
    (ht : t ∈ pend) : ∃ e ∈ located p fuel i pend, e.1 = t.1 := by
  have hflush : ∃ e ∈ pend.flush, e.1 = t.1 := by
    cases ht
    exact ⟨_, List.mem_singleton_self _, rfl⟩
  induction fuel generalizing i pend t with
  | zero => exact hflush
  | succ fuel ih =>
    simp only [located]
    split
    · exact hflush
    · split
      · obtain ⟨e, he, heq⟩ := hflush
        exact ⟨e, List.mem_append_left _ he, heq⟩
      · split
        · obtain ⟨e, he, heq⟩ := ih (i := i + 1) ht hflush
          exact ⟨e, List.mem_cons_of_mem _ he, heq⟩
        · rename_i c _ _ _
          cases ht
          exact @ih (i + 1) (Pending.add (some t) i c) (t.1, t.2 ++ [c]) rfl
            ⟨_, List.mem_singleton_self _, rfl⟩

theorem unclosed_lt {p : List Char} {i : ℕ} (h : unclosed p i = true) : p[i]? = some '%' := by
  simpa [startsDirective] using (Bool.and_eq_true_iff.mp (Bool.and_eq_true_iff.mp h).1).1

/-- Behind the `%` of a directive there is no other. -/
theorem not_unclosed_succ {p : List Char} {i : ℕ} (h : unclosed p i = true) :
    unclosed p (i + 1) = false := by
  have hnot : (p[i + 1]? == some '%') = false := by
    simpa [startsDirective] using (Bool.and_eq_true_iff.mp (Bool.and_eq_true_iff.mp h).1).2
  unfold unclosed startsDirective
  rw [hnot]
  rfl

/-- No marker stands before an entry whose text begins earlier. -/
def InOrder (p : List Char) (es : List (ℕ × Piece)) : Prop :=
  es.Pairwise fun a b => unclosed p a.1 = true → a.1 ≤ b.1

/-- An entry that is no marker may stand anywhere. -/
theorem inOrder_cons {p : List Char} {e : ℕ × Piece} {es : List (ℕ × Piece)}
    (h : unclosed p e.1 = false) : InOrder p (e :: es) ↔ InOrder p es := by
  unfold InOrder
  rw [List.pairwise_cons]
  simp [h]

theorem inOrder_flush_append {p : List Char} {pend : Pending} {es : List (ℕ × Piece)}
    (hpend : ∀ t ∈ pend, unclosed p t.1 = false) : InOrder p (pend.flush ++ es) ↔ InOrder p es := by
  cases pend with
  | none => exact Iff.rfl
  | some t => exact inOrder_cons (hpend t rfl)

theorem flush_inOrder (p : List Char) (pend : Pending) : InOrder p pend.flush := by
  cases pend with
  | none => exact List.Pairwise.nil
  | some t => exact List.pairwise_singleton _ _

/-- A marker is in order exactly if no text is pending: what is pending begins before it and comes
out behind it. -/
theorem inOrder_marker {p : List Char} {fuel i : ℕ} {pend : Pending} {piece : Piece}
    (hunclosed : unclosed p i = true) (hpend : ∀ t ∈ pend, t.1 < i) :
    InOrder p ((i, piece) :: located p fuel (i + 1) pend) ↔
      pend.isSome = false ∧ InOrder p (located p fuel (i + 1) pend) := by
  unfold InOrder
  rw [List.pairwise_cons]
  refine and_congr_left fun _ => ⟨fun hfirst => ?_, fun hnone e he _ => ?_⟩
  · cases pend with
    | none => rfl
    | some t =>
      obtain ⟨e, he, heq⟩ := @pending_mem p fuel (i + 1) (some t) t rfl
      have hle : i ≤ e.1 := hfirst e he hunclosed
      have hlt := hpend t rfl
      omega
  · cases pend with
    | none => exact le_of_mem_located (Nat.le_succ i) (by simp) he
    | some t => cases hnone

/-- Entries from here on are in order exactly if a directive that is not closed stands directly
behind a complete one, at the positions that follow and, with text pending, here. -/
theorem ordered_iff {p : List Char} {fuel i : ℕ} {pend : Pending} (hfuel : p.length ≤ i + fuel)
    (hpend : ∀ t ∈ pend, t.1 < i ∧ unclosed p t.1 = false) :
    InOrder p (located p fuel i pend) ↔
      (∀ j ∈ visited p fuel i, unclosed p (next p j) = true → complete p j = true) ∧
        (pend.isSome = true → unclosed p i = false) := by
  have hend : ∀ {i}, p[i]? = none → unclosed p i = false := by
    intro i hnone
    by_contra hunclosed
    have hsome := unclosed_lt (by simpa using hunclosed)
    rw [hnone] at hsome
    cases hsome
  induction fuel generalizing i pend with
  | zero =>
    have hnone : p[i]? = none := List.getElem?_eq_none (by omega)
    exact iff_of_true (flush_inOrder p pend) ⟨fun j hj => (by cases hj), fun _ => hend hnone⟩
  | succ fuel ih =>
    cases hc : p[i]? with
    | none =>
      rw [visited_none hc]
      simp only [located, hc]
      exact iff_of_true (flush_inOrder p pend) ⟨fun j hj => (by cases hj), fun _ => hend hc⟩
    | some c =>
      have hlater : ∀ t ∈ pend, t.1 < i + 1 ∧ unclosed p t.1 = false :=
        fun t ht => ⟨Nat.lt_succ_of_lt (hpend t ht).1, (hpend t ht).2⟩
      rw [visited_succ hc]
      simp only [located, hc, List.forall_mem_cons]
      split
      case isTrue hcomplete =>
        have hrest := @ih (next p i) none (by have := lt_next p i; omega) (by simp)
        have hhere := not_unclosed_of_complete hcomplete
        rw [inOrder_flush_append fun t ht => (hpend t ht).2, inOrder_cons hhere]
        refine hrest.trans ?_
        simp [hcomplete, hhere]
      case isFalse hcomplete =>
        rw [next_of_not_complete hcomplete]
        split
        case isTrue hunclosed =>
          have hrest := @ih (i + 1) pend (by omega) hlater
          have hnext := not_unclosed_succ hunclosed
          rw [inOrder_marker hunclosed fun t ht => (hpend t ht).1]
          refine (and_congr_right fun _ => hrest).trans ?_
          simp [hunclosed, hnext, and_comm]
        case isFalse hunclosed =>
          have hhere : unclosed p i = false := by simpa using hunclosed
          have hadd : ∀ t ∈ pend.add i c, t.1 < i + 1 ∧ unclosed p t.1 = false := by
            intro t ht
            rcases mem_add ht with hi | ⟨t', ht', heq⟩
            · rw [hi]
              exact ⟨Nat.lt_succ_self i, hhere⟩
            · rw [heq]
              exact hlater t' ht'
          have hrest := @ih (i + 1) (pend.add i c) (by omega) hadd
          refine hrest.trans ?_
          simp [Pending.add, hhere, hcomplete, and_comm]

/-! ### Malformed patterns -/

/-- A pattern whose every directive with an open brace is an error, and has its marker behind the
items built from the text before it. -/
structure KeepsOrder (p : List Char) : Prop where
  /-- It is the formatter's items that are in this order: one for an entry. -/
  items : (new (String.ofList p)).items = (entries p).map fun e => e.2.item.1
  error : ∀ i ∈ visited p p.length 0, unclosed p i = true →
    (new (String.ofList p)).isError = true
  marker : ∀ i ∈ visited p p.length 0, unclosed p i = true →
    ∃ e ∈ entries p, e.1 = i ∧ e.2.item.1 = .string "<<pattern_error>>"
  order : (entries p).Pairwise fun a b => unclosed p a.1 = true → a.1 ≤ b.1

/-- Whatever stands directly before a directive with an open brace is a complete directive. -/
def ClosedBefore (p : List Char) : Prop :=
  ∀ i ∈ visited p p.length 0, unclosed p (next p i) = true → complete p i = true

/-- Items keep the order of a pattern exactly if no directive with an open brace follows on
anything but a complete directive. -/
theorem keepsOrder_iff_closedBefore (p : List Char) : KeepsOrder p ↔ ClosedBefore p := by
  have hiff := @ordered_iff p p.length 0 none (by omega) (by simp)
  constructor
  · intro h
    exact (hiff.mp h.order).1
  · intro h
    refine ⟨items_entries p, fun i hi hunclosed => ?_,
      fun i hi hunclosed => marker_mem none hi hunclosed, hiff.mpr ⟨h, fun hsome => by cases hsome⟩⟩
    have herror := @error_of_unclosed p p.length 0 ⟨[], [], false⟩ (.inr ⟨i, hi, hunclosed⟩)
    show (init (String.ofList p)).2 = true
    simp only [init, String.toList_ofList, flush_error, herror, Bool.true_or]

/-- The text before the open brace comes out behind the marker. -/
theorem text_moved : ¬ KeepsOrder "a%d\x7bb".toList := by
  intro h
  have hentries : ¬ (entries "a%d\x7bb".toList).Pairwise fun a b =>
      unclosed "a%d\x7bb".toList a.1 = true → a.1 ≤ b.1 := by decide +kernel
  exact hentries h.order

end SimpleHttpServer.LogFormatter
