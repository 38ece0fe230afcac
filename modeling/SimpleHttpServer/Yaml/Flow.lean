import SimpleHttpServer.Yaml.Node
import Mathlib.Data.List.TakeDrop

/-! A YAML library that is all there: trees in flow style.

`[a, b]` is a sequence, `{k: v}` with its braces a map, `~` is null; a scalar is written
plain where it safely can be and in double quotes otherwise. Loading takes exactly
this back (`yaml_lawful`), so what is proved of every lawful library holds of one
that runs. -/
namespace SimpleHttpServer.Flow

/-! ### Scalars -/

def plainChar (c : Char) : Bool := c.isAlphanum || c == '_' || c == '-' || c == '.' || c == '/'

/-- Plain texts that mean null. -/
def isNullText (s : List Char) : Bool :=
  s == "null".toList || s == "Null".toList || s == "NULL".toList

/-- Whether a scalar may be written as it is. -/
def isPlain (s : List Char) : Bool :=
  (s.head?.any Char.isAlphanum) && s.all plainChar && !isNullText s

def escapeChar (c : Char) : List Char :=
  if c = '"' then ['\\', '"']
  else if c = '\\' then ['\\', '\\']
  else if c = '\n' then ['\\', 'n']
  else [c]

def escape (s : List Char) : List Char := s.flatMap escapeChar

def emitScalar (s : List Char) : List Char :=
  if isPlain s then s else '"' :: (escape s ++ ['"'])

/-- The rest of a quoted scalar, up to its closing quote. -/
def unescape : List Char → Option (List Char × List Char)
  | [] => none
  | '"' :: rest => some ([], rest)
  | '\\' :: c :: rest => (unescape rest).map fun p => ((if c = 'n' then '\n' else c) :: p.1, p.2)
  | c :: rest => (unescape rest).map fun p => (c :: p.1, p.2)

theorem unescape_escape (s rest : List Char) :
    unescape (escape s ++ '"' :: rest) = some (s, rest) := by
  induction s with
  | nil => rfl
  | cons c s ih =>
    have hcons : escape (c :: s) = escapeChar c ++ escape s := rfl
    rw [hcons, List.append_assoc]
    unfold escapeChar
    split
    · subst c
      simp [unescape, ih]
    · split
      · subst c
        simp [unescape, ih]
      · split
        · subst c
          simp [unescape, ih]
        · simp [unescape, *]

/-- What may follow a plain scalar. -/
def Stops (rest : List Char) : Prop := ∀ c, rest.head? = some c → plainChar c = false

/-- A plain scalar is read up to where it stops. -/
theorem split_plain {s rest : List Char} (hs : ∀ c ∈ s, plainChar c = true) (h : Stops rest) :
    (s ++ rest).takeWhile plainChar = s ∧ (s ++ rest).dropWhile plainChar = rest := by
  rw [List.takeWhile_append_of_pos hs, List.dropWhile_append_of_pos hs]
  cases rest with
  | nil => simp
  | cons c rest =>
    have hc : plainChar c = false := h c rfl
    simp [hc]

/-- A plain scalar starts with a letter or a digit, and loads as its text. -/
theorem isPlain_cons {s : List Char} (h : isPlain s = true) :
    ∃ c t, s = c :: t ∧ c.isAlphanum = true ∧ (∀ d ∈ s, plainChar d = true) ∧
      isNullText s = false := by
  cases s with
  | nil => simp [isPlain] at h
  | cons c t =>
    simp only [isPlain, List.head?_cons, Option.any_some, Bool.and_eq_true, List.all_eq_true,
      Bool.not_eq_true'] at h
    exact ⟨c, t, rfl, h.1.1, h.1.2, h.2⟩

theorem alphanum_ne {c d : Char} (h : c.isAlphanum = true) (hd : d.isAlphanum = false) : c ≠ d := by
  intro heq
  rw [heq, hd] at h
  cases h

/-! ### Trees -/

mutual
def emitNode : Node → List Char
  | .null => ['~']
  | .scalar s => emitScalar s.toList
  | .sequence [] => ['[', ']']
  | .sequence (n :: rest) => '[' :: (emitNode n ++ emitElems rest)
  | .map [] => ['\x7b', '\x7d']
  | .map ((k, v) :: rest) => '\x7b' :: (emitNode k ++ ':' :: ' ' :: (emitNode v ++ emitPairs rest))

/-- The elements behind the first one. -/
def emitElems : List Node → List Char
  | [] => [']']
  | n :: rest => ',' :: ' ' :: (emitNode n ++ emitElems rest)

/-- The pairs behind the first one. -/
def emitPairs : List (Node × Node) → List Char
  | [] => ['\x7d']
  | (k, v) :: rest => ',' :: ' ' :: (emitNode k ++ ':' :: ' ' :: (emitNode v ++ emitPairs rest))
end

mutual
/-- One node off the front of a text. -/
def loadNode : ℕ → List Char → Option (Node × List Char)
  | 0, _ => none
  | _ + 1, [] => none
  | fuel + 1, c :: rest =>
    if c = '~' then some (.null, rest)
    else if c = '"' then (unescape rest).map fun p => (.scalar (String.ofList p.1), p.2)
    else if c = '[' then
      if rest.head? = some ']' then some (.sequence [], rest.tail)
      else (loadNode fuel rest).bind fun p =>
        (loadElems fuel p.2).map fun q => (.sequence (p.1 :: q.1), q.2)
    else if c = '\x7b' then
      if rest.head? = some '\x7d' then some (.map [], rest.tail)
      else (loadPair fuel rest).bind fun p =>
        (loadPairs fuel p.2).map fun q => (.map (p.1 :: q.1), q.2)
    else
      let s := (c :: rest).takeWhile plainChar
      if s.isEmpty then none
      else some (if isNullText s then .null else .scalar (String.ofList s),
        (c :: rest).dropWhile plainChar)

def loadElems : ℕ → List Char → Option (List Node × List Char)
  | 0, _ => none
  | fuel + 1, text =>
    match text with
    | ']' :: rest => some ([], rest)
    | ',' :: ' ' :: rest => (loadNode fuel rest).bind fun p =>
        (loadElems fuel p.2).map fun q => (p.1 :: q.1, q.2)
    | _ => none

/-- One pair of a map. -/
def loadPair : ℕ → List Char → Option ((Node × Node) × List Char)
  | 0, _ => none
  | fuel + 1, text => (loadNode fuel text).bind fun k =>
      match k.2 with
      | ':' :: ' ' :: rest => (loadNode fuel rest).map fun v => ((k.1, v.1), v.2)
      | _ => none

def loadPairs : ℕ → List Char → Option (List (Node × Node) × List Char)
  | 0, _ => none
  | fuel + 1, text =>
    match text with
    | '\x7d' :: rest => some ([], rest)
    | ',' :: ' ' :: rest => (loadPair fuel rest).bind fun p =>
        (loadPairs fuel p.2).map fun q => (p.1 :: q.1, q.2)
    | _ => none
end

/-! ### Loading what was written -/

/-- No node starts with a closing bracket. -/
theorem emitNode_head (n : Node) : ∃ c t, emitNode n = c :: t ∧ c ≠ ']' ∧ c ≠ '\x7d' := by
  cases n with
  | null => exact ⟨'~', [], by simp [emitNode], by decide, by decide⟩
  | scalar s =>
    simp only [emitNode, emitScalar]
    split
    · obtain ⟨c, t, hs, hc, _⟩ := isPlain_cons ‹_›
      exact ⟨c, t, hs, alphanum_ne hc (by decide), alphanum_ne hc (by decide)⟩
    · exact ⟨'"', _, rfl, by decide, by decide⟩
  | sequence elems => cases elems <;> exact ⟨'[', _, by simp only [emitNode]; rfl, by decide, by decide⟩
  | map pairs => cases pairs <;> exact ⟨'\x7b', _, by simp only [emitNode]; rfl, by decide, by decide⟩

theorem stops_of_head {c : Char} {rest : List Char} (h : plainChar c = false) : Stops (c :: rest) := by
  intro d hd
  cases hd
  exact h

theorem stops_elems (l : List Node) (rest : List Char) : Stops (emitElems l ++ rest) := by
  cases l <;> simp only [emitElems, List.cons_append] <;> exact stops_of_head (by decide)

theorem stops_pairs (l : List (Node × Node)) (rest : List Char) : Stops (emitPairs l ++ rest) := by
  rcases l with _ | ⟨⟨k, v⟩, l⟩ <;> simp only [emitPairs, List.cons_append] <;>
    exact stops_of_head (by decide)

theorem loadNode_scalar (s : String) {fuel : ℕ} {rest : List Char}
    (hfuel : (emitScalar s.toList).length ≤ fuel) (hstop : Stops rest) :
    loadNode fuel (emitScalar s.toList ++ rest) = some (.scalar s, rest) := by
  unfold emitScalar at hfuel ⊢
  split at hfuel
  case isTrue hplain =>
    rw [if_pos hplain]
    obtain ⟨c, t, hs, hc, hall, hnull⟩ := isPlain_cons hplain
    rw [hs] at hfuel
    cases fuel with
    | zero => simp at hfuel
    | succ fuel =>
      obtain ⟨htake, hdrop⟩ := split_plain hall hstop
      rw [hs, List.cons_append] at htake hdrop ⊢
      have h1 : c ≠ '~' := alphanum_ne hc (by decide)
      have h2 : c ≠ '"' := alphanum_ne hc (by decide)
      have h3 : c ≠ '[' := alphanum_ne hc (by decide)
      have h4 : c ≠ '\x7b' := alphanum_ne hc (by decide)
      have hback : String.ofList (c :: t) = s := by rw [← hs, String.ofList_toList]
      rw [hs] at hnull
      simp only [loadNode, h1, h2, h3, h4, ↓reduceIte, htake, hdrop, List.isEmpty_cons,
        Bool.false_eq_true, hnull, hback]
  case isFalse hplain =>
    rw [if_neg hplain]
    cases fuel with
    | zero => simp at hfuel
    | succ fuel =>
      have hquote : '"' :: (escape s.toList ++ ['"']) ++ rest = '"' :: (escape s.toList ++ '"' :: rest) := by
        simp
      rw [hquote]
      simp [loadNode, unescape_escape]

theorem loadPair_of {k v : Node} {fuel : ℕ} {rest : List Char}
    (hk : loadNode fuel (emitNode k ++ ':' :: ' ' :: (emitNode v ++ rest)) =
      some (k, ':' :: ' ' :: (emitNode v ++ rest)))
    (hv : loadNode fuel (emitNode v ++ rest) = some (v, rest)) :
    loadPair (fuel + 1) (emitNode k ++ ':' :: ' ' :: (emitNode v ++ rest)) =
      some ((k, v), rest) := by
  simp only [loadPair, hk, Option.bind_some, hv, Option.map_some]

mutual
/-- A node written in front of something that cannot be taken for part of it loads as itself. -/
theorem loadNode_emit : ∀ (n : Node) (fuel : ℕ) (rest : List Char), (emitNode n).length ≤ fuel →
    Stops rest → loadNode fuel (emitNode n ++ rest) = some (n, rest)
  | .null, 0, _, hfuel, _ => by simp [emitNode] at hfuel
  | .null, fuel + 1, rest, _, _ => by simp [emitNode, loadNode]
  | .scalar s, fuel, rest, hfuel, hstop => by
    simp only [emitNode] at hfuel ⊢
    exact loadNode_scalar s hfuel hstop
  | .sequence [], 0, _, hfuel, _ => by simp [emitNode] at hfuel
  | .sequence [], fuel + 1, rest, _, _ => by simp [emitNode, loadNode]
  | .sequence (n :: l), 0, _, hfuel, _ => by simp [emitNode] at hfuel
  | .sequence (n :: l), fuel + 1, rest, hfuel, _ => by
    obtain ⟨c, t, hhead, hc, _⟩ := emitNode_head n
    simp only [emitNode, List.length_cons, List.length_append] at hfuel
    have hfirst := loadNode_emit n fuel (emitElems l ++ rest) (by omega) (stops_elems l rest)
    have hrest := loadElems_emit l fuel rest (by omega)
    have hopen : (emitNode n ++ (emitElems l ++ rest)).head? ≠ some ']' := by
      rw [hhead]
      simpa using hc
    simp only [emitNode, List.cons_append, List.append_assoc]
    rw [loadNode, if_neg (by decide), if_neg (by decide), if_pos rfl, if_neg hopen, hfirst]
    simp only [Option.bind_some, hrest, Option.map_some]
  | .map [], 0, _, hfuel, _ => by simp [emitNode] at hfuel
  | .map [], fuel + 1, rest, _, _ => by simp [emitNode, loadNode]
  | .map ((k, v) :: l), 0, _, hfuel, _ => by simp [emitNode] at hfuel
  | .map ((k, v) :: l), fuel + 1, rest, hfuel, _ => by
    obtain ⟨c, t, hhead, _, hc⟩ := emitNode_head k
    simp only [emitNode, List.length_cons, List.length_append] at hfuel
    obtain ⟨fuel, rfl⟩ : ∃ f, fuel = f + 1 := ⟨fuel - 1, by omega⟩
    have hkey := loadNode_emit k fuel (':' :: ' ' :: (emitNode v ++ (emitPairs l ++ rest)))
      (by omega) (stops_of_head (by decide))
    have hvalue := loadNode_emit v fuel (emitPairs l ++ rest) (by omega) (stops_pairs l rest)
    have hpair := loadPair_of hkey hvalue
    have hrest := loadPairs_emit l (fuel + 1) rest (by omega)
    have hopen : (emitNode k ++ ':' :: ' ' :: (emitNode v ++ (emitPairs l ++ rest))).head? ≠
        some '\x7d' := by
      rw [hhead]
      simpa using hc
    simp only [emitNode, List.cons_append, List.append_assoc]
    rw [loadNode, if_neg (by decide), if_neg (by decide), if_neg (by decide), if_pos rfl,
      if_neg hopen, hpair]
    simp only [Option.bind_some, hrest, Option.map_some]

theorem loadElems_emit : ∀ (l : List Node) (fuel : ℕ) (rest : List Char),
    (emitElems l).length ≤ fuel → loadElems fuel (emitElems l ++ rest) = some (l, rest)
  | [], 0, _, hfuel => by simp [emitElems] at hfuel
  | [], fuel + 1, rest, _ => by simp [emitElems, loadElems]
  | n :: l, 0, _, hfuel => by simp [emitElems] at hfuel
  | n :: l, fuel + 1, rest, hfuel => by
    simp only [emitElems, List.length_cons, List.length_append] at hfuel
    have hfirst := loadNode_emit n fuel (emitElems l ++ rest) (by omega) (stops_elems l rest)
    have hrest := loadElems_emit l fuel rest (by omega)
    simp [emitElems, loadElems, hfirst, hrest]

theorem loadPairs_emit : ∀ (l : List (Node × Node)) (fuel : ℕ) (rest : List Char),
    (emitPairs l).length ≤ fuel → loadPairs fuel (emitPairs l ++ rest) = some (l, rest)
  | [], 0, _, hfuel => by simp [emitPairs] at hfuel
  | [], fuel + 1, rest, _ => by simp [emitPairs, loadPairs]
  | (k, v) :: l, 0, _, hfuel => by simp [emitPairs] at hfuel
  | (k, v) :: l, fuel + 1, rest, hfuel => by
    simp only [emitPairs, List.length_cons, List.length_append] at hfuel
    obtain ⟨fuel, rfl⟩ : ∃ f, fuel = f + 1 := ⟨fuel - 1, by omega⟩
    have hkey := loadNode_emit k fuel (':' :: ' ' :: (emitNode v ++ (emitPairs l ++ rest)))
      (by omega) (stops_of_head (by decide))
    have hvalue := loadNode_emit v fuel (emitPairs l ++ rest) (by omega) (stops_pairs l rest)
    have hpair := loadPair_of hkey hvalue
    have hrest := loadPairs_emit l (fuel + 1) rest (by omega)
    simp only [emitPairs, List.cons_append, List.append_assoc]
    rw [loadPairs, hpair]
    simp only [Option.bind_some, hrest, Option.map_some]
end

/-! ### The library -/

/-- A text is loaded whole or not at all; the empty text is null. -/
def load (text : String) : Except Exn Node :=
  if text = "" then .ok .null
  else
    match loadNode text.toList.length text.toList with
    | some (n, []) => .ok n
    | _ => .error "parse error"

def emit (n : Node) : String := String.ofList (emitNode n)

def yaml : YamlCpp := ⟨load, emit, "", String.toNat?⟩

theorem yaml_lawful : yaml.Lawful := by
  refine ⟨fun n => ?_⟩
  show load (emit n) = .ok n
  obtain ⟨c, t, hhead, _⟩ := emitNode_head n
  have hne : emit n ≠ "" := by
    intro h
    have hnil := congrArg String.toList h
    rw [emit, String.toList_ofList, hhead] at hnil
    cases hnil
  have hload := loadNode_emit n (emitNode n).length [] (Nat.le_refl _) (fun _ h => nomatch h)
  rw [List.append_nil] at hload
  rw [load, if_neg hne, emit, String.toList_ofList, hload]

theorem yaml_emitsNone : yaml.EmitsNone := ⟨.null, rfl, rfl⟩

theorem length_escape (s : List Char) : s.length ≤ (escape s).length := by
  induction s with
  | nil => exact Nat.le_refl _
  | cons c rest ih =>
    have hchar : 1 ≤ (escapeChar c).length := by
      unfold escapeChar
      split
      · simp
      · split
        · simp
        · split <;> simp
    have hcons : escape (c :: rest) = escapeChar c ++ escape rest := rfl
    rw [hcons, List.length_append, List.length_cons]
    omega

theorem yaml_quotes : yaml.Quotes fun s => isPlain s.toList = true := by
  constructor
  · intro s hs
    show String.ofList (emitScalar s.toList) = s
    rw [emitScalar, if_pos hs, String.ofList_toList]
  · intro s hs
    refine ⟨"\"", by simp, String.ofList (escape s.toList), ?_, ?_⟩
    · show String.ofList (emitScalar s.toList) = _
      rw [emitScalar, if_neg hs]
      apply String.toList_injective
      simp
    · rw [← String.length_toList, ← String.length_toList, String.toList_ofList]
      exact length_escape s.toList

example : emit (.map [(.scalar "level", .scalar "INFO"),
    (.scalar "appenders", .sequence [.scalar "a b", .null])]) =
      "\x7blevel: INFO, appenders: [\"a b\", ~]\x7d" := by
  decide +kernel

end SimpleHttpServer.Flow
