import SimpleHttpServer.Log.Formatter
import Mathlib.Data.List.TakeWhile

/-! Patterns read by what is left of them.

`LogFormatter::init` works on indices into one pattern. What its loops do depends
on the rest of the pattern only, and is said here in terms of it: a directive is a
run of name characters and perhaps a closed brace (`directive`), and a pattern is
read one character or one directive at a time (`parse`). -/
namespace SimpleHttpServer.LogFormatter

/-- What the inner loop passes over before a brace. -/
def nameChar (c : Char) : Bool := isAlpha c || c == '}'

/-- A directive behind its `%`: name, brace argument and what follows; `none` where a brace is
not closed. -/
def directive (cs : List Char) : Option (List Char × List Char × List Char) :=
  let name := cs.takeWhile nameChar
  match cs.dropWhile nameChar with
  | '{' :: inner =>
    match inner.dropWhile (· != '}') with
    | [] => none
    | _ :: rest => some (name, inner.takeWhile (· != '}'), rest)
  | rest => some (name, [], rest)

/-- The three shapes of what is behind a `%`. -/
inductive Reads : List Char → Option (List Char × List Char × List Char) → Prop
  | bare (name rest : List Char) (hname : ∀ c ∈ name, nameChar c = true)
      (hstop : ∀ c, rest.head? = some c → nameChar c = false ∧ c ≠ '{') :
      Reads (name ++ rest) (some (name, [], rest))
  | closed (name arg rest : List Char) (hname : ∀ c ∈ name, nameChar c = true) (harg : '}' ∉ arg) :
      Reads (name ++ '{' :: (arg ++ '}' :: rest)) (some (name, arg, rest))
  | unclosed (name inner : List Char) (hname : ∀ c ∈ name, nameChar c = true)
      (hinner : '}' ∉ inner) : Reads (name ++ '{' :: inner) none

theorem dropWhile_eq_cons {q : Char → Bool} {cs rest : List Char} {c : Char}
    (h : cs.dropWhile q = c :: rest) : cs = cs.takeWhile q ++ c :: rest ∧ q c = false := by
  refine ⟨by rw [← h, List.takeWhile_append_dropWhile], ?_⟩
  have hhead := List.head_dropWhile_not q (l := cs) (by simp [h])
  simpa [h] using hhead

theorem directive_reads (cs : List Char) : Reads cs (directive cs) := by
  have hname : ∀ c ∈ cs.takeWhile nameChar, nameChar c = true := fun c hc => List.mem_takeWhile_imp hc
  have hsplit : cs.takeWhile nameChar ++ cs.dropWhile nameChar = cs := List.takeWhile_append_dropWhile
  unfold directive
  dsimp only
  split
  case h_1 inner hrest =>
    rw [hrest] at hsplit
    split
    case h_1 hclose =>
      have hinner : '}' ∉ inner := by
        intro hin
        simpa using List.dropWhile_eq_nil_iff.mp hclose '}' hin
      rw [← hsplit]
      simpa [hsplit] using Reads.unclosed _ inner hname hinner
    case h_2 d rest hclose =>
      obtain ⟨hinner, hd⟩ := dropWhile_eq_cons hclose
      have hbrace : d = '}' := by simpa using hd
      rw [hbrace] at hinner
      have harg : '}' ∉ inner.takeWhile (· != '}') := by
        intro hin
        simpa using List.mem_takeWhile_imp hin
      have hreads := Reads.closed _ _ rest hname harg
      rwa [← hinner, hsplit] at hreads
  case h_2 hrest =>
    have hreads := Reads.bare _ (cs.dropWhile nameChar) hname fun c hc => by
      cases hd : cs.dropWhile nameChar with
      | nil =>
        rw [hd] at hc
        cases hc
      | cons d rest =>
        rw [hd] at hc
        cases hc
        refine ⟨(dropWhile_eq_cons hd).2, ?_⟩
        intro heq
        exact hrest rest (by rw [hd, heq])
    rwa [hsplit] at hreads

theorem takeWhile_stop {q : Char → Bool} {l r : List Char} {c : Char} (hl : ∀ d ∈ l, q d = true)
    (hc : q c = false) :
    (l ++ c :: r).takeWhile q = l ∧ (l ++ c :: r).dropWhile q = c :: r := by
  rw [List.takeWhile_append_of_pos hl, List.dropWhile_append_of_pos hl]
  simp [hc]

/-- The shape decides what is read. -/
theorem Reads.eq {cs : List Char} {d : Option (List Char × List Char × List Char)}
    (h : Reads cs d) : directive cs = d := by
  cases h with
  | bare name rest hname hstop =>
    unfold directive
    cases rest with
    | nil =>
      rw [List.append_nil, List.takeWhile_eq_self_iff.mpr hname, List.dropWhile_eq_nil_iff.mpr hname]
    | cons c rest =>
      obtain ⟨hc, hbrace⟩ := hstop c rfl
      obtain ⟨htake, hdrop⟩ := takeWhile_stop (r := rest) hname hc
      rw [htake, hdrop]
      split
      case h_1 heq =>
        cases heq
        exact absurd rfl hbrace
      case h_2 => rfl
  | closed name arg rest hname harg =>
    obtain ⟨htake, hdrop⟩ := takeWhile_stop (r := arg ++ '}' :: rest) (c := '{') hname rfl
    have hall : ∀ d ∈ arg, (d != '}') = true := by
      intro d hd
      have hne : d ≠ '}' := fun heq => harg (heq ▸ hd)
      simpa using hne
    obtain ⟨htake', hdrop'⟩ := takeWhile_stop (r := rest) (c := '}') hall rfl
    simp only [directive, htake, hdrop, htake', hdrop']
  | unclosed name inner hname hinner =>
    obtain ⟨htake, hdrop⟩ := takeWhile_stop (r := inner) (c := '{') hname rfl
    have hall : inner.dropWhile (· != '}') = [] := by
      refine List.dropWhile_eq_nil_iff.mpr fun d hd => ?_
      have hne : d ≠ '}' := fun heq => hinner (heq ▸ hd)
      simpa using hne
    simp only [directive, hdrop, hall]

/-- A plain character. -/
def Parse.plain (r : Parse) (c : Char) : Parse := {r with nstr := r.nstr ++ [c]}

def Parse.push (r : Parse) (e : Piece) : Parse := {r with vec := r.vec ++ [e]}

/-! ### The inner loop -/

theorem drop_succ_of_cons {p : List Char} {n : ℕ} {c : Char} {rest : List Char}
    (h : p.drop n = c :: rest) : p[n]? = some c ∧ p.drop (n + 1) = rest ∧ n < p.length := by
  have hlt : n < p.length := by
    by_contra hge
    rw [List.drop_eq_nil_of_le (by omega)] at h
    cases h
  rw [List.drop_eq_getElem_cons hlt] at h
  obtain ⟨hc, hrest⟩ := List.cons.inj h
  exact ⟨by rw [List.getElem?_eq_getElem hlt, hc], hrest, hlt⟩

theorem not_brace_of_nameChar {c : Char} (h : nameChar c = true) : c ≠ '{' := by
  intro heq
  rw [heq] at h
  cases h

/-- What `str` holds on the way: nothing before the end of the pattern, and all that is behind the
`%` there. -/
def strAt (p : List Char) (i n : ℕ) : List Char := if n = p.length then p.drop (i + 1) else []

/-- The inner loop passes over the name. -/
theorem scan_name {p : List Char} {i b : ℕ} (name : List Char) (hname : ∀ c ∈ name, nameChar c = true)
    {n fuel : ℕ} {rest : List Char} (hrest : p.drop n = name ++ rest) :
    scan p i (name.length + fuel) ⟨n, false, b, strAt p i n, []⟩ =
      scan p i fuel ⟨n + name.length, false, b, strAt p i (n + name.length), []⟩ := by
  induction name generalizing n with
  | nil => simp
  | cons c name ih =>
    obtain ⟨hc, htail, hlt⟩ := drop_succ_of_cons hrest
    have hnc := hname c (List.mem_cons_self ..)
    have hbrace := not_brace_of_nameChar hnc
    have hstop : (!isAlpha c && c != '{' && c != '}') = false := by
      unfold nameChar at hnc
      cases ha : isAlpha c <;> simp_all
    have hnext := ih (fun d hd => hname d (List.mem_cons_of_mem c hd)) htail
    have hstr : strAt p i n = [] := by simp [strAt, Nat.ne_of_lt hlt]
    have hturn : scan p i (name.length + fuel + 1) ⟨n, false, b, [], []⟩ =
        scan p i (name.length + fuel) ⟨n + 1, false, b, strAt p i (n + 1), []⟩ := by
      have hopen : (c == '{') = false := by simpa using hbrace
      simp only [scan, hc, Bool.not_false, Bool.true_and, hstop, hopen, Bool.false_and, strAt,
        Bool.false_eq_true, ↓reduceIte, List.isEmpty_nil, Bool.and_true, beq_iff_eq]
      split <;> rfl
    have hlen : (c :: name).length + fuel = name.length + fuel + 1 := by
      simp only [List.length_cons]
      omega
    rw [hlen, hstr, hturn, hnext]
    have hend : n + 1 + name.length = n + (c :: name).length := by
      simp only [List.length_cons]
      omega
    rw [hend]

/-- Behind an opening brace it passes over everything up to the closing one. -/
theorem scan_arg {p : List Char} {i b : ℕ} {str : List Char} (arg : List Char) (harg : '}' ∉ arg)
    {n fuel : ℕ} {rest : List Char} (hrest : p.drop n = arg ++ '}' :: rest) :
    scan p i (arg.length + (fuel + 1)) ⟨n, true, b, str, []⟩ =
      ⟨n + arg.length + 1, false, b, str, substr p (b + 1) (n + arg.length - b - 1)⟩ := by
  induction arg generalizing n with
  | nil =>
    obtain ⟨hc, -, -⟩ := drop_succ_of_cons hrest
    simp [scan, hc]
  | cons c arg ih =>
    obtain ⟨hc, htail, -⟩ := drop_succ_of_cons hrest
    obtain ⟨hne, harg⟩ : '}' ≠ c ∧ '}' ∉ arg := by simpa using harg
    have hlt : n + 1 < p.length := by
      by_contra hge
      rw [List.drop_eq_nil_of_le (by omega)] at htail
      simp at htail
    have hclose : (c == '}') = false := by simpa using Ne.symm hne
    have hturn : scan p i (arg.length + (fuel + 1) + 1) ⟨n, true, b, str, []⟩ =
        scan p i (arg.length + (fuel + 1)) ⟨n + 1, true, b, str, []⟩ := by
      have hend : (n + 1 == p.length) = false := by simpa using Nat.ne_of_lt hlt
      rw [scan]
      simp only [hc, hclose, hend, Bool.not_true, Bool.false_and, Bool.and_false,
        Bool.false_eq_true, ↓reduceIte]
    have hlen : (c :: arg).length + (fuel + 1) = arg.length + (fuel + 1) + 1 := by
      simp only [List.length_cons]
      omega
    have hend : n + 1 + arg.length = n + (c :: arg).length := by
      simp only [List.length_cons]
      omega
    rw [hlen, hturn, ih harg htail, hend]

/-- Where none closes, it stays inside. -/
theorem scan_open {p : List Char} {i fuel : ℕ} {s : Scan} (hin : s.inBrace = true)
    (hopen : '}' ∉ p.drop s.n) :
    (scan p i fuel s).inBrace = true ∧ (scan p i fuel s).fmt = s.fmt := by
  induction fuel generalizing s with
  | zero => exact ⟨hin, rfl⟩
  | succ fuel ih =>
    cases hc : p[s.n]? with
    | none => simpa [scan, hc] using hin
    | some c =>
      have hlt : s.n < p.length := (List.getElem?_eq_some_iff.mp hc).1
      have hdrop : p.drop s.n = c :: p.drop (s.n + 1) := by
        rw [List.drop_eq_getElem_cons hlt, (List.getElem?_eq_some_iff.mp hc).2]
      rw [hdrop] at hopen
      obtain ⟨hne, hrest⟩ : '}' ≠ c ∧ '}' ∉ p.drop (s.n + 1) := by simpa using hopen
      have hclose : (c == '}') = false := by simpa using Ne.symm hne
      rw [scan]
      simp only [hc, hin, hclose, Bool.not_true, Bool.false_and, Bool.and_false,
        Bool.false_eq_true, ↓reduceIte]
      split
      · exact ih (s := ⟨s.n + 1, true, s.fmtBegin, p.drop (i + 1), s.fmt⟩) rfl hrest
      · exact ih (s := ⟨s.n + 1, true, s.fmtBegin, s.str, s.fmt⟩) rfl hrest

theorem substr_of_drop {p cs rest : List Char} {i : ℕ} (h : p.drop i = cs ++ rest) :
    substr p i cs.length = cs := by
  rw [substr, h, List.take_left']
  rfl

/-- Where the inner loop stands behind the name of a directive, and what is left of its turns. -/
theorem scan_to_name {p name rest : List Char} {i : ℕ} (hname : ∀ c ∈ name, nameChar c = true)
    (hdrop : p.drop (i + 1) = name ++ rest) :
    scan p i (p.length - (i + 1)) ⟨i + 1, false, 0, [], []⟩ =
      scan p i rest.length ⟨i + 1 + name.length, false, 0, strAt p i (i + 1 + name.length), []⟩ := by
  have hlen := congrArg List.length hdrop
  simp only [List.length_drop, List.length_append] at hlen
  have hstr : strAt p i (i + 1) = [] := by
    unfold strAt
    split
    · exact List.drop_eq_nil_of_le (by omega)
    · rfl
  have hloop := @scan_name p i 0 name hname (i + 1) rest.length rest hdrop
  rw [hstr] at hloop
  rw [hlen, hloop]

/-- What the inner loop leaves behind. -/
def Scanned (p : List Char) (s : Scan) : Option (List Char × List Char × List Char) → Prop
  | some (name, arg, rest) => s.inBrace = false ∧ s.str = name ∧ s.fmt = arg ∧ p.drop s.n = rest
  | none => s.inBrace = true ∧ s.fmt = []

/-- The inner loop reads a directive. -/
theorem scan_reads {p cs : List Char} {i : ℕ} {d : Option (List Char × List Char × List Char)}
    (hi : i < p.length) (hdrop : p.drop (i + 1) = cs) (h : Reads cs d) :
    Scanned p (scan p i (p.length - (i + 1)) ⟨i + 1, false, 0, [], []⟩) d := by
  have hwidth : ∀ k, i + 1 + k - i - 1 = k := fun k => by omega
  have hbehind : ∀ {name c rest}, p.drop (i + 1) = name ++ c :: rest →
      p[i + 1 + name.length]? = some c ∧ p.drop (i + 1 + name.length + 1) = rest ∧
        strAt p i (i + 1 + name.length) = [] := by
    intro name c rest hdrop
    have hname : p.drop (i + 1 + name.length) = c :: rest := by
      rw [← List.drop_drop, hdrop, List.drop_left]
    obtain ⟨hc, htail, hlt⟩ := drop_succ_of_cons hname
    exact ⟨hc, htail, by simp [strAt, Nat.ne_of_lt hlt]⟩
  have hopened : ∀ {name inner}, p.drop (i + 1) = name ++ '{' :: inner →
      scan p i (inner.length + 1) ⟨i + 1 + name.length, false, 0, [], []⟩ =
        scan p i inner.length ⟨i + 1 + name.length + 1, true, i + 1 + name.length, name, []⟩ := by
    intro name inner hdrop
    simp [scan, (hbehind hdrop).1, hwidth, substr_of_drop hdrop]
  cases h with
  | bare name rest hname hstop =>
    rw [scan_to_name hname hdrop]
    cases rest with
    | nil =>
      have hlen := congrArg List.length hdrop
      simp only [List.length_drop, List.length_append, List.length_nil] at hlen
      have hend : i + 1 + name.length = p.length := by omega
      rw [hend]
      refine ⟨rfl, ?_, rfl, ?_⟩
      · simpa [strAt, scan] using hdrop
      · simp [scan]
    | cons c rest =>
      obtain ⟨hc, hbrace⟩ := hstop c rfl
      obtain ⟨hget, htail, hstr⟩ := hbehind hdrop
      have hstop' : (!isAlpha c && c != '{' && c != '}') = true := by
        unfold nameChar at hc
        simp_all
      rw [hstr]
      simp only [scan, List.length_cons, hget, Bool.not_false, Bool.true_and, hstop', ↓reduceIte,
        hwidth]
      refine ⟨rfl, substr_of_drop hdrop, rfl, ?_⟩
      rw [← List.drop_drop, hdrop, List.drop_left]
  | closed name arg rest hname harg =>
    obtain ⟨-, htail, hstr⟩ := hbehind hdrop
    have hfuel : (arg ++ '}' :: rest).length = arg.length + (rest.length + 1) := by simp
    have hinner : i + 1 + name.length + 1 + arg.length - (i + 1 + name.length) - 1 = arg.length := by
      omega
    rw [scan_to_name hname hdrop, hstr, List.length_cons, hopened hdrop, hfuel,
      scan_arg arg harg htail, hinner]
    refine ⟨rfl, rfl, substr_of_drop htail, ?_⟩
    show p.drop (i + 1 + name.length + 1 + arg.length + 1) = rest
    rw [← List.drop_drop, ← List.drop_drop, htail, List.drop_left]
    rfl
  | unclosed name inner hname hinner =>
    obtain ⟨-, htail, hstr⟩ := hbehind hdrop
    rw [scan_to_name hname hdrop, hstr, List.length_cons, hopened hdrop]
    refine scan_open (s := ⟨_, true, _, _, _⟩) rfl ?_
    rw [htail]
    exact hinner

/-! ### The outer loop -/

theorem directive_length {cs name arg rest : List Char} (h : directive cs = some (name, arg, rest)) :
    rest.length ≤ cs.length := by
  have hreads := directive_reads cs
  rw [h] at hreads
  cases hreads with
  | bare => simp
  | closed =>
    simp only [List.length_append, List.length_cons]
    omega

/-- The marker of a directive whose brace is not closed. -/
def patternError : Piece := ⟨"<<pattern_error>>".toList, [], false⟩

/-- The rest of a pattern read from this state. -/
def parse : List Char → Parse → Parse
  | [], r => r
  | c :: rest, r =>
    if c ≠ '%' then parse rest (r.plain c)
    else if rest.head? = some '%' then parse rest (r.plain '%')
    else
      match _h : directive rest with
      | some (name, arg, rest') => parse rest' (r.flush.push ⟨name, arg, true⟩)
      | none => parse rest {r.push patternError with error := true}
termination_by cs => cs.length
decreasing_by
  · simp
  · simp
  · exact Nat.lt_succ_of_le (directive_length _h)
  · simp

/-- The outer loop reads the rest of the pattern. -/
theorem pieces_eq_parse (p : List Char) {fuel i : ℕ} (hfuel : p.length ≤ i + fuel) (r : Parse) :
    pieces p fuel i r = parse (p.drop i) r := by
  induction fuel generalizing i r with
  | zero =>
    rw [List.drop_eq_nil_of_le (by omega), parse]
    rfl
  | succ fuel ih =>
    cases hdrop : p.drop i with
    | nil =>
      have hend : p[i]? = none := List.getElem?_eq_none (List.drop_eq_nil_iff.mp hdrop)
      rw [parse]
      simp only [pieces, hend]
    | cons c rest =>
      obtain ⟨hc, htail, hlt⟩ := drop_succ_of_cons hdrop
      have hnext : p[i + 1]? = rest.head? := by
        rw [← htail, List.head?_drop]
      have hrec := fun r => ih (i := i + 1) (by omega) r
      rw [htail] at hrec
      rw [parse]
      simp only [pieces, hc, hnext, hrec]
      by_cases hplain : c ≠ '%'
      · simp [hplain, Parse.plain]
      · by_cases hescape : rest.head? = some '%'
        · simp [hplain, hescape, Parse.plain]
        · have hscan := scan_reads hlt htail (directive_reads rest)
          simp only [hplain, hescape, bne_iff_ne, beq_iff_eq, ↓reduceIte]
          generalize scan p i (p.length - (i + 1)) ⟨i + 1, false, 0, [], []⟩ = s at hscan
          cases hd : directive rest with
          | none =>
            rw [hd] at hscan
            obtain ⟨hin, hfmt⟩ := hscan
            simp only [hin, hfmt, ↓reduceIte]
            rfl
          | some d =>
            obtain ⟨name, arg, rest'⟩ := d
            rw [hd] at hscan
            obtain ⟨hin, hname, harg, hrest⟩ := hscan
            have hlen := directive_length hd
            rw [← hrest, ← htail, List.length_drop, List.length_drop] at hlen
            have hturn := ih (i := s.n - 1 + 1) (by omega) (r.flush.push ⟨name, arg, true⟩)
            have hn : s.n - 1 + 1 = s.n := by omega
            rw [hn, hrest] at hturn
            simp only [hin, hname, harg, hn, Bool.false_eq_true, ↓reduceIte]
            exact hturn

/-- A pattern is parsed from the empty state, and the last text flushed. -/
theorem init_eq (pattern : String) :
    init pattern =
      let r := (parse pattern.toList ⟨[], [], false⟩).flush
      (r.vec.map fun e => e.item.1, r.error || r.vec.any fun e => e.item.2) := by
  simp only [init, pieces_eq_parse pattern.toList (Nat.le_add_left ..), List.drop_zero]

end SimpleHttpServer.LogFormatter
