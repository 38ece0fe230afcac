import SimpleHttpServer.Lib.Loop
import SimpleHttpServer.Log.Order
import SimpleHttpServer.Log.Pattern

/-! Where `LogFormatter::init` reads.

The positions in the two loops of `init` are unsigned and are computed from each
other: the inner loop starts behind the outer position, which is set back to the
character before the place it stops at, and the lengths of the substrings are
differences. Here both loops take their turns as one machine that stops with a
fault at a read outside the pattern, at a `substr` from behind its end and at a
position that leaves the range of a `size_t`. It is the machine, not a counter,
that says when the loops end. -/
namespace SimpleHttpServer.LogFormatter

/-- What must not happen. -/
inductive Fault
  /-- `m_pattern[n]` with `n` not below the size. -/
  | index
  /-- `substr` with a start above the size. -/
  | substr
  /-- A `size_t` that wraps around. -/
  | wrap
  deriving DecidableEq, Repr

/-- `m_pattern[n]`. -/
def charAt (p : List Char) (n : ℕ) : Except Fault Char :=
  match p[n]? with
  | some c => .ok c
  | none => .error .index

/-- `n + 1`, which does not wrap around as long as it is at most the size. -/
def plusOne (p : List Char) (n : ℕ) : Except Fault ℕ :=
  if n < p.length then .ok (n + 1) else .error .wrap

/-- `a - b`. -/
def minus (a b : ℕ) : Except Fault ℕ := if b ≤ a then .ok (a - b) else .error .wrap

/-- `m_pattern.substr(pos, len)`. -/
def substrAt (p : List Char) (pos len : ℕ) : Except Fault (List Char) :=
  if pos ≤ p.length then .ok (substr p pos len) else .error .substr

/-- `m_pattern.substr(a+1, n-a-1)`. -/
def substrBetween (p : List Char) (a n : ℕ) : Except Fault (List Char) := do
  substrAt p (← plusOne p a) (← minus (← minus n a) 1)

/-- `m_pattern.substr(pos)`. -/
def substrFrom (p : List Char) (pos : ℕ) : Except Fault (List Char) :=
  if pos ≤ p.length then .ok (p.drop pos) else .error .substr

/-- Where the loops are between two turns, with the variables they have there. -/
inductive Cursor
  /-- Before the condition of the outer loop. -/
  | outer (i : ℕ) (r : Parse)
  /-- Before the condition of the inner loop. -/
  | inner (i : ℕ) (s : Scan) (r : Parse)
  /-- Behind the inner loop. -/
  | behind (i : ℕ) (s : Scan) (r : Parse)
  deriving DecidableEq, Repr

/-- The entries so far. -/
def Cursor.parse : Cursor → Parse
  | outer _ r => r
  | inner _ _ r => r
  | behind _ _ r => r

/-- `m_pattern[i]` and what a plain character or a `%` leads to. -/
def outerTurn (p : List Char) (i : ℕ) (r : Parse) : Except Fault (Cursor ⊕ Parse) :=
  if i < p.length then do
    let c ← charAt p i
    if c ≠ '%' then
      return .inl (.outer (← plusOne p i) (r.plain c))
    let next ← plusOne p i
    if next < p.length then
      if (← charAt p next) = '%' then
        return .inl (.outer (← plusOne p i) (r.plain '%'))
    return .inl (.inner i ⟨← plusOne p i, false, 0, [], []⟩ r)
  else return .inr r.flush

/-- One character of a directive. -/
def innerTurn (p : List Char) (i : ℕ) (s : Scan) (r : Parse) : Except Fault (Cursor ⊕ Parse) :=
  if s.n < p.length then do
    -- every comparison of the turn reads this character again
    let c ← charAt p s.n
    if !s.inBrace && !isAlpha c && c != '{' && c != '}' then
      let str ← substrBetween p i s.n
      return .inl (.behind i {s with str := str} r)
    if !s.inBrace && c == '{' then
      let str ← substrBetween p i s.n
      let n ← plusOne p s.n
      return .inl (.inner i {s with str := str, inBrace := true, fmtBegin := s.n, n := n} r)
    if s.inBrace && c == '}' then
      let fmt ← substrBetween p s.fmtBegin s.n
      return .inl (.behind i {s with fmt := fmt, inBrace := false, n := ← plusOne p s.n} r)
    let n ← plusOne p s.n
    if n = p.length then
      if s.str.isEmpty then
        return .inl (.inner i {s with n := n, str := ← substrFrom p (← plusOne p i)} r)
    return .inl (.inner i {s with n := n} r)
  else return .inl (.behind i s r)

/-- An entry for the directive and one step back, or the marker of an open brace and its message. -/
def behindTurn (p : List Char) (i : ℕ) (s : Scan) (r : Parse) : Except Fault (Cursor ⊕ Parse) :=
  if !s.inBrace then do
    let i ← minus s.n 1
    return .inl (.outer (← plusOne p i) (r.flush.push ⟨s.str, s.fmt, true⟩))
  else do
    let _ ← substrFrom p i
    return .inl (.outer (← plusOne p i)
      {r.push ⟨"<<pattern_error>>".toList, s.fmt, false⟩ with error := true})

/-- The loops of `init`. -/
def loops (p : List Char) : Loop Fault Cursor Parse where
  turn
    | .outer i r => outerTurn p i r
    | .inner i s r => innerTurn p i s r
    | .behind i s r => behindTurn p i s r

/-- Before the first turn. -/
def start : Cursor := .outer 0 ⟨[], [], false⟩

/-! ### Operations within their range -/

@[simp] theorem charAt_of_lt {p : List Char} {n : ℕ} (h : n < p.length) :
    charAt p n = .ok p[n] := by
  simp [charAt, h]

@[simp] theorem plusOne_of_lt {p : List Char} {n : ℕ} (h : n < p.length) :
    plusOne p n = .ok (n + 1) := if_pos h

@[simp] theorem minus_of_le {a b : ℕ} (h : b ≤ a) : minus a b = .ok (a - b) := if_pos h

@[simp] theorem substrAt_of_le {p : List Char} {pos : ℕ} (h : pos ≤ p.length) (len : ℕ) :
    substrAt p pos len = .ok (substr p pos len) := if_pos h

@[simp] theorem substrBetween_of_lt {p : List Char} {a n : ℕ} (h : a < n) (hn : n ≤ p.length) :
    substrBetween p a n = .ok (substr p (a + 1) (n - a - 1)) := by
  have ha : a < p.length := by omega
  have hwidth : 1 ≤ n - a := by omega
  simp [substrBetween, plusOne_of_lt ha, minus_of_le h.le, minus_of_le hwidth, substrAt_of_le ha,
    bind, Except.bind]

@[simp] theorem substrFrom_of_le {p : List Char} {pos : ℕ} (h : pos ≤ p.length) :
    substrFrom p pos = .ok (p.drop pos) := if_pos h

/-! ### Entries and positions -/

theorem flush_length (r : Parse) :
    r.flush.vec.length = r.vec.length + if r.nstr.isEmpty then 0 else 1 := by
  unfold Parse.flush
  split <;> simp

/-- A character adds at most one entry. -/
theorem plain_length (r : Parse) (c : Char) :
    (r.plain c).flush.vec.length ≤ r.flush.vec.length + 1 := by
  rw [flush_length, flush_length]
  simp [Parse.plain]

theorem push_length (r : Parse) (e : Piece) :
    (r.flush.push e).flush.vec.length = r.flush.vec.length + 1 := by
  rw [flush_of_nil (r := r.flush.push e) (flush_nstr r)]
  simp [Parse.push]

theorem marker_length (r : Parse) (e : Piece) :
    ({r.push e with error := true} : Parse).flush.vec.length = r.flush.vec.length + 1 := by
  rw [flush_length, flush_length, Nat.add_right_comm, ← List.length_singleton (a := e),
    ← List.length_append]
  rfl

/-- The variables of a directive that starts at `i`: the inner loop is behind the `%` and inside the
pattern, the opening brace is behind it, and no more entries are there than characters before. -/
structure Inside (p : List Char) (i : ℕ) (s : Scan) (r : Parse) : Prop where
  lt_n : i < s.n
  n_le : s.n ≤ p.length
  brace : s.inBrace = true → s.fmtBegin < s.n
  count : r.flush.vec.length ≤ i

/-- The outer loop behind an inner loop that has left these variables. -/
def afterScan (p : List Char) (i : ℕ) (s : Scan) (r : Parse) : Parse :=
  if s.inBrace then
    (pieces p (p.length - (i + 1)) (i + 1)
      {r.push ⟨"<<pattern_error>>".toList, s.fmt, false⟩ with error := true}).flush
  else (pieces p (p.length - s.n) s.n (r.flush.push ⟨s.str, s.fmt, true⟩)).flush

/-- What holds between two turns on the way to `result`. -/
def OnTheWay (p : List Char) (result : Parse) : Cursor → Prop
  | .outer i r =>
    i ≤ p.length ∧ r.flush.vec.length ≤ i ∧ (pieces p (p.length - i) i r).flush = result
  | .inner i s r => Inside p i s r ∧ afterScan p i (scan p i (p.length - s.n) s) r = result
  | .behind i s r => Inside p i s r ∧ afterScan p i s r = result

/-- The turns that are left at most. -/
def turnsLeft (p : List Char) : Cursor → ℕ
  | .outer i _ => (p.length - i) * (p.length + 3)
  | .inner i s _ => (p.length - (i + 1)) * (p.length + 3) + (p.length - s.n) + 2
  | .behind i _ _ => (p.length - (i + 1)) * (p.length + 3) + 1

/-- Entries of the whole pattern, at most as many as characters. -/
def Finished (p : List Char) (result r : Parse) : Prop := r = result ∧ r.vec.length ≤ p.length

/-- A turn that does not fault and brings the loops nearer to their end. -/
abbrev TurnsFrom (p : List Char) (result : Parse) (c : Cursor)
    (outcome : Except Fault (Cursor ⊕ Parse)) : Prop :=
  Loop.Turned (OnTheWay p result) (turnsLeft p) (Finished p result) (turnsLeft p c) outcome

/-- Counters that reach the end of the pattern make no difference. -/
theorem pieces_fuel {p : List Char} {fuel fuel' i : ℕ} (h : p.length ≤ i + fuel)
    (h' : p.length ≤ i + fuel') (r : Parse) : pieces p fuel i r = pieces p fuel' i r := by
  rw [pieces_eq_parse p h, pieces_eq_parse p h']

theorem behindTurn_turned {p : List Char} {result : Parse} {i : ℕ} {s : Scan} {r : Parse}
    (h : OnTheWay p result (.behind i s r)) :
    TurnsFrom p result (.behind i s r) (behindTurn p i s r) := by
  obtain ⟨⟨hlt, hle, -, hcount⟩, hresult⟩ := h
  have hi : i < p.length := by omega
  cases hbrace : s.inBrace
  case false =>
    have hback : s.n - 1 < p.length := by omega
    have hagain : s.n - 1 + 1 = s.n := by omega
    have hturn : behindTurn p i s r =
        .ok (.inl (.outer s.n (r.flush.push ⟨s.str, s.fmt, true⟩))) := by
      simp [behindTurn, hbrace, minus_of_le (show 1 ≤ s.n by omega), plusOne_of_lt hback, hagain,
        bind, Except.bind, pure, Except.pure]
    rw [hturn]
    apply Loop.Turned.next
    · refine ⟨hle, ?_, ?_⟩
      · rw [push_length]
        omega
      · simpa [afterScan, hbrace] using hresult
    · have hless : p.length - s.n ≤ p.length - (i + 1) := by omega
      have hmul := Nat.mul_le_mul_right (p.length + 3) hless
      simp only [turnsLeft]
      omega
  case true =>
    have hturn : behindTurn p i s r = .ok (.inl (.outer (i + 1)
        {r.push ⟨"<<pattern_error>>".toList, s.fmt, false⟩ with error := true})) := by
      simp [behindTurn, hbrace, substrFrom_of_le hi.le, plusOne_of_lt hi,
        bind, Except.bind, pure, Except.pure]
    rw [hturn]
    apply Loop.Turned.next
    · refine ⟨hi, ?_, ?_⟩
      · rw [marker_length]
        omega
      · simpa [afterScan, hbrace] using hresult
    · simp only [turnsLeft]
      omega

/-- The inner loop goes on further right. -/
theorem turned_inner {p : List Char} {result : Parse} {i : ℕ} {s t : Scan} {r : Parse}
    (ht : Inside p i t r) (hlt : s.n < t.n)
    (hresult : afterScan p i (scan p i (p.length - t.n) t) r = result) :
    TurnsFrom p result (.inner i s r) (.ok (.inl (.inner i t r))) := by
  have hle := ht.n_le
  apply Loop.Turned.next
  · exact ⟨ht, hresult⟩
  · simp only [turnsLeft]
    omega

/-- The inner loop ends. -/
theorem turned_behind {p : List Char} {result : Parse} {i : ℕ} {s t : Scan} {r : Parse}
    (ht : Inside p i t r) (hresult : afterScan p i t r = result) :
    TurnsFrom p result (.inner i s r) (.ok (.inl (.behind i t r))) := by
  apply Loop.Turned.next
  · exact ⟨ht, hresult⟩
  · simp only [turnsLeft]
    omega

theorem innerTurn_turned {p : List Char} {result : Parse} {i : ℕ} {s : Scan} {r : Parse}
    (h : OnTheWay p result (.inner i s r)) :
    TurnsFrom p result (.inner i s r) (innerTurn p i s r) := by
  obtain ⟨⟨hlt, hle, hbrace, hcount⟩, hresult⟩ := h
  by_cases hn : s.n < p.length
  case neg =>
    have hend : p.length - s.n = 0 := by omega
    rw [hend] at hresult
    rw [innerTurn, if_neg hn]
    exact turned_behind ⟨hlt, hle, hbrace, hcount⟩ hresult
  case pos =>
    have hi : i < p.length := by omega
    have hnext : i < s.n + 1 := Nat.lt_succ_of_lt hlt
    have hfuel : p.length - s.n = p.length - (s.n + 1) + 1 := by omega
    rw [hfuel, scan] at hresult
    simp only [List.getElem?_eq_getElem hn] at hresult
    simp only [innerTurn, hn, if_true, charAt_of_lt hn, plusOne_of_lt hn, plusOne_of_lt hi,
      substrBetween_of_lt hlt hle, substrFrom_of_le hi, bind, Except.bind, pure, Except.pure]
    split
    case isTrue hstop =>
      rw [if_pos hstop] at hresult
      exact turned_behind ⟨hlt, hle, hbrace, hcount⟩ hresult
    case isFalse hstop =>
      rw [if_neg hstop] at hresult
      split
      case isTrue hopen =>
        rw [if_pos hopen] at hresult
        exact turned_inner ⟨hnext, hn, fun _ => Nat.lt_succ_self s.n, hcount⟩ (Nat.lt_succ_self s.n)
          hresult
      case isFalse hopen =>
        rw [if_neg hopen] at hresult
        split
        case isTrue hclose =>
          rw [if_pos hclose] at hresult
          have hin : s.inBrace = true := (Bool.and_eq_true_iff.mp hclose).1
          rw [substrBetween_of_lt (hbrace hin) hle]
          exact turned_behind ⟨hnext, hn, fun h => (by cases h), hcount⟩ hresult
        case isFalse hclose =>
          rw [if_neg hclose] at hresult
          have hlater : s.inBrace = true → s.fmtBegin < s.n + 1 :=
            fun h => Nat.lt_succ_of_lt (hbrace h)
          -- The three ways on differ in `str` only.
          have hon : ∀ str, afterScan p i (scan p i (p.length - (s.n + 1))
              {s with n := s.n + 1, str := str}) r = result → TurnsFrom p result (.inner i s r)
                (.ok (.inl (.inner i {s with n := s.n + 1, str := str} r))) := fun str hstr =>
            turned_inner ⟨hnext, hn, hlater, hcount⟩ (Nat.lt_succ_self s.n) hstr
          split
          case isTrue hend =>
            split
            case isTrue hempty =>
              rw [if_pos (by simp [hend, hempty])] at hresult
              exact hon _ hresult
            case isFalse hempty =>
              rw [if_neg (by simp [hempty])] at hresult
              exact hon _ hresult
          case isFalse hend =>
            rw [if_neg (by simp [hend])] at hresult
            exact hon _ hresult

/-- Where a directive starts, the outer loop goes on behind its inner loop. -/
theorem pieces_directive {p : List Char} {i : ℕ} {r : Parse} (hpercent : p[i]? = some '%')
    (hnext : p[i + 1]? ≠ some '%') :
    (pieces p (p.length - i) i r).flush = afterScan p i (directiveScan p i) r := by
  have hi : i < p.length := (List.getElem?_eq_some_iff.mp hpercent).1
  have hlt := lt_directiveScan p i
  have hfuel : p.length - i = p.length - (i + 1) + 1 := by omega
  have hstart : startsDirective p i = true := by simp [startsDirective, hpercent, hnext]
  rw [hfuel, pieces_succ hpercent]
  unfold afterScan next complete unclosed
  rw [hstart]
  cases hbrace : (directiveScan p i).inBrace
  case false =>
    have hsame := @pieces_fuel p (p.length - (i + 1)) (p.length - (directiveScan p i).n)
      (directiveScan p i).n (by omega) (by omega)
    simp only [Bool.not_false, Bool.true_and, if_true, Bool.false_eq_true, if_false]
    rw [hsame]
    rfl
  case true =>
    simp only [Bool.not_true, Bool.true_and, Bool.false_eq_true, if_false, if_true]
    rfl

theorem outerTurn_turned {p : List Char} {result : Parse} {i : ℕ} {r : Parse}
    (h : OnTheWay p result (.outer i r)) :
    TurnsFrom p result (.outer i r) (outerTurn p i r) := by
  obtain ⟨hle, hcount, hresult⟩ := h
  by_cases hi : i < p.length
  case neg =>
    have hend : p.length - i = 0 := by omega
    rw [hend] at hresult
    rw [outerTurn, if_neg hi]
    apply Loop.Turned.ended
    exact ⟨hresult, by omega⟩
  case pos =>
    have hfuel : p.length - i = p.length - (i + 1) + 1 := by omega
    have hget : p[i]? = some p[i] := List.getElem?_eq_getElem hi
    have hstep : (p.length - i) * (p.length + 3) =
        (p.length - (i + 1)) * (p.length + 3) + (p.length + 3) := by
      rw [hfuel, Nat.succ_mul]
    have hon : ∀ c, (pieces p (p.length - (i + 1)) (i + 1) (r.plain c)).flush = result →
        TurnsFrom p result (.outer i r) (.ok (.inl (.outer (i + 1) (r.plain c)))) := by
      intro c hplain
      apply Loop.Turned.next
      · have hlen := plain_length r c
        exact ⟨hi, by omega, hplain⟩
      · simp only [turnsLeft]
        omega
    have hdirective : afterScan p i (directiveScan p i) r = result →
        TurnsFrom p result (.outer i r) (.ok (.inl (.inner i ⟨i + 1, false, 0, [], []⟩ r))) := by
      intro hafter
      apply Loop.Turned.next
      · exact ⟨⟨Nat.lt_succ_self i, hi, fun h => (by cases h), hcount⟩, hafter⟩
      · simp only [turnsLeft]
        omega
    simp only [outerTurn, hi, if_true, charAt_of_lt hi, plusOne_of_lt hi, bind, Except.bind, pure,
      Except.pure]
    split
    case isTrue hplain =>
      apply hon
      rw [hfuel, pieces] at hresult
      simpa [hget, hplain, Parse.plain] using hresult
    case isFalse hpercent =>
      have hc : p[i] = '%' := Classical.not_not.mp hpercent
      rw [hc] at hget
      split
      case isTrue hnext =>
        simp only [charAt_of_lt hnext]
        split
        case isTrue hescape =>
          apply hon
          have hget' : p[i + 1]? = some '%' := by rw [List.getElem?_eq_getElem hnext, hescape]
          rw [hfuel, pieces] at hresult
          simpa [hget, hget', Parse.plain] using hresult
        case isFalse hescape =>
          apply hdirective
          rw [← pieces_directive hget (by simpa [hnext] using hescape)]
          exact hresult
      case isFalse hnext =>
        apply hdirective
        rw [← pieces_directive hget (by simp [hnext])]
        exact hresult

/-! ### The whole scan -/

/-- No turn faults. -/
theorem loops_turned {p : List Char} {result : Parse} (c : Cursor) (h : OnTheWay p result c) :
    TurnsFrom p result c ((loops p).turn c) := by
  cases c with
  | outer i r => exact outerTurn_turned h
  | inner i s r => exact innerTurn_turned h
  | behind i s r => exact behindTurn_turned h

theorem start_onTheWay (p : List Char) :
    OnTheWay p (pieces p p.length 0 ⟨[], [], false⟩).flush start :=
  ⟨Nat.zero_le _, Nat.le_refl 0, rfl⟩

/-- On the way there are no more entries than characters. -/
theorem OnTheWay.count {p : List Char} {result : Parse} {c : Cursor} (h : OnTheWay p result c) :
    c.parse.vec.length ≤ p.length := by
  have hflush : ∀ r : Parse, r.vec.length ≤ r.flush.vec.length := by
    intro r
    rw [flush_length]
    exact Nat.le_add_right ..
  cases c with
  | outer i r =>
    obtain ⟨hle, hcount, -⟩ := h
    exact (hflush r).trans (hcount.trans hle)
  | inner i s r =>
    obtain ⟨⟨hlt, hle, -, hcount⟩, -⟩ := h
    exact (hflush r).trans (hcount.trans (hlt.le.trans hle))
  | behind i s r =>
    obtain ⟨⟨hlt, hle, -, hcount⟩, -⟩ := h
    exact (hflush r).trans (hcount.trans (hlt.le.trans hle))

/-- The loops of `init` keep inside the pattern and come to their end with the entries that `init`
makes its items of. -/
structure ScansInside (pattern : String) : Prop where
  /-- Every character read, every start and length of a substring and every position is in range,
  however far the loops have come. -/
  noFault : ∀ k fault, (loops pattern.toList).run k start ≠ .error fault
  /-- The inner loop may read the rest of the pattern once for every position of the outer one. -/
  ends : ∃ r,
    (loops pattern.toList).run (pattern.length * (pattern.length + 3) + 1) start = .ok (.inr r) ∧
      init pattern = (r.vec.map fun e => e.item.1, r.error || r.vec.any fun e => e.item.2)
  /-- On the way there are no more entries than characters either. -/
  entries : ∀ k c, (loops pattern.toList).run k start = .ok (.inl c) →
    c.parse.vec.length ≤ pattern.length
  items : (new pattern).items.length ≤ pattern.length

/-- Whatever the pattern, its scan ends and never leaves it. -/
theorem scansInside (pattern : String) : ScansInside pattern := by
  have hstart := start_onTheWay pattern.toList
  have hlen : pattern.toList.length = pattern.length := String.length_toList
  have hleft : turnsLeft pattern.toList start < pattern.length * (pattern.length + 3) + 1 := by
    rw [← hlen]
    exact Nat.lt_succ_self _
  obtain ⟨r, hrun, rfl, hcount⟩ := Loop.run_ends loops_turned hstart hleft
  constructor
  case noFault => exact Loop.run_ne_error loops_turned hstart
  case ends => exact ⟨_, hrun, rfl⟩
  case entries =>
    intro k c hc
    rw [← hlen]
    exact OnTheWay.count (Loop.run_keeps loops_turned hstart hc)
  case items =>
    show (init pattern).1.length ≤ pattern.length
    rw [← hlen]
    simpa [init] using hcount

/-- An open brace: its text is read twice. -/
example : (loops "%d\x7b".toList).run 9 start =
    .ok (.inr ⟨[], [patternError, ⟨['d', '\x7b'], [], false⟩], true⟩) := by
  decide

end SimpleHttpServer.LogFormatter
