import Mathlib.Data.Nat.Notation

/-! YAML node trees and the library that reads and writes them.

A node is what yaml-cpp hands out: null, a scalar's text, a sequence, or a map as
the list of its pairs in document order. Reading and writing text is the
library's affair and a parameter here (`YamlCpp`); what is asked of it, where
anything is, is that loading the text of a tree gives the tree back (`Lawful`). -/
namespace SimpleHttpServer

/-- What a thrown `std::exception` says. -/
abbrev Exn := String

/-- `YAML::Node` of a loaded or built tree. -/
inductive Node
  | null
  | scalar (text : String)
  | sequence (elems : List Node)
  | map (pairs : List (Node × Node))

namespace Node

/-- `IsScalar()`. -/
def isScalar : Node → Bool
  | scalar _ => true
  | _ => false

/-- `IsMap()`. -/
def isMap : Node → Bool
  | map _ => true
  | _ => false

/-- `Scalar()`, empty for other nodes. -/
def text : Node → String
  | scalar s => s
  | _ => ""

/-- `size()`. -/
def size : Node → ℕ
  | sequence elems => elems.length
  | map pairs => pairs.length
  | _ => 0

/-- Whether a map key is this text. -/
def isKey (key : String) : Node → Bool
  | scalar s => s == key
  | _ => false

@[simp] theorem isKey_scalar (key s : String) : isKey key (scalar s) = (s == key) := rfl

/-- `node[key]`: `none` for an undefined node. A scalar has no members. -/
def get (key : String) : Node → Except Exn (Option Node)
  | scalar _ => .error "operator[] call on a scalar"
  | map pairs => .ok ((pairs.find? fun p => isKey key p.1).map (·.2))
  | _ => .ok none

/-- `as<std::string>()` of what `node[key]` answered. -/
def asString : Option Node → Except Exn String
  | none => .error "bad conversion"
  | some null => .ok "null"
  | some (scalar s) => .ok s
  | some _ => .error "bad conversion"

/-- `node[key] = value` in a map under construction; a fresh node becomes a map. -/
def set (n : Node) (key : String) (value : Node) : Node :=
  match n with
  | map pairs =>
    if pairs.any fun p => isKey key p.1 then
      map (pairs.map fun p => if isKey key p.1 then (p.1, value) else p)
    else map (pairs ++ [(scalar key, value)])
  | _ => map [(scalar key, value)]

/-- `push_back`; a fresh node becomes a sequence. -/
def push (n : Node) (value : Node) : Node :=
  match n with
  | sequence elems => sequence (elems ++ [value])
  | _ => sequence [value]

/-! A map and a key it does not have. -/

theorem find?_fresh {ps rest : List (Node × Node)} {key : String} {value : Node}
    (h : ps.any (fun p => isKey key p.1) = false) :
    (ps ++ (scalar key, value) :: rest).find? (fun p => isKey key p.1) =
      some (scalar key, value) := by
  have hnone : ps.find? (fun p => isKey key p.1) = none := by
    simpa [List.find?_eq_none] using h
  simp [List.find?_append, hnone]

/-- Such a key is put at the end. -/
theorem set_fresh {ps : List (Node × Node)} {key : String} {value : Node}
    (h : ps.any (fun p => isKey key p.1) = false) :
    set (map ps) key value = map (ps ++ [(scalar key, value)]) := by
  simp only [set, h, Bool.false_eq_true, ↓reduceIte]

/-- The last member is replaced in its place. -/
theorem set_last {ps : List (Node × Node)} {key : String} {value value' : Node}
    (h : ps.any (fun p => isKey key p.1) = false) :
    set (map (ps ++ [(scalar key, value)])) key value' = map (ps ++ [(scalar key, value')]) := by
  have hkept : ps.map (fun p => if isKey key p.1 then (p.1, value') else p) = ps := by
    refine (List.map_congr_left fun p hp => ?_).trans ps.map_id
    have hp := List.any_eq_false.mp h p hp
    simp [hp]
  simp only [set]
  simp [hkept]

end Node

/-- yaml-cpp: `YAML::Load`, the text a node is streamed as, the text of a node that was never
assigned or is undefined, and the conversion of a map key to an index. -/
structure YamlCpp where
  load : String → Except Exn Node
  emit : Node → String
  emitNone : String
  toIndex : String → Option ℕ

namespace YamlCpp

/-- Loading the emitted text of a tree gives the tree. -/
structure Lawful (Y : YamlCpp) : Prop where
  load_emit : ∀ n, Y.load (Y.emit n) = .ok n

/-- Scalars that are valid as plain scalars are emitted as they are, and the others between quotes,
with escapes that make them no shorter. -/
structure Quotes (Y : YamlCpp) (plain : String → Prop) : Prop where
  kept : ∀ s, plain s → Y.emit (.scalar s) = s
  quoted : ∀ s, ¬ plain s → ∃ quote ∈ ["\"", "'"], ∃ body : String,
    Y.emit (.scalar s) = quote ++ body ++ quote ∧ s.length ≤ body.length

/-- A node that was never assigned is emitted so that it loads as a node of size 0. -/
def EmitsNone (Y : YamlCpp) : Prop := ∃ n, Y.load Y.emitNone = .ok n ∧ n.size = 0

/-- `node[i]`, where `i` is below the size: an element, or the value of a key that reads as `i`. -/
def index (Y : YamlCpp) (n : Node) (i : ℕ) : Option Node :=
  match n with
  | .sequence elems => elems[i]?
  | .map pairs =>
    (pairs.find? fun p => p.1.isScalar && Y.toIndex p.1.text == some i).map (·.2)
  | _ => none

/-- `ss << node`, `none` being undefined. -/
def stream (Y : YamlCpp) : Option Node → String
  | some n => Y.emit n
  | none => Y.emitNone

/-- Quotes make a difference. -/
theorem Quotes.emit_eq_iff {Y : YamlCpp} {plain : String → Prop} (h : Y.Quotes plain) (s : String) :
    Y.emit (.scalar s) = s ↔ plain s := by
  refine ⟨fun heq => Classical.byContradiction fun hs => ?_, h.kept s⟩
  obtain ⟨quote, hquote, body, hemit, hlen⟩ := h.quoted s hs
  have hone : quote.length = 1 := by
    rcases List.mem_cons.mp hquote with rfl | hquote
    · rfl
    · rw [List.mem_singleton.mp hquote]
      rfl
  have hlength := congrArg String.length (heq.symm.trans hemit)
  rw [String.length_append, String.length_append] at hlength
  omega

/-- A loop over the indices of a sequence is a loop over its elements. -/
theorem mapM_index {α : Type} (Y : YamlCpp) (f : Option Node → Except Exn α) (elems : List Node) :
    (List.range (Node.sequence elems).size).mapM (fun i => f (Y.index (.sequence elems) i)) =
      elems.mapM fun n => f (some n) := by
  have hindex : (List.range elems.length).map (fun i => elems[i]?) = elems.map some := by
    refine List.ext_getElem (by simp) fun i hi _ => ?_
    simp at hi
    simp [hi]
  calc (List.range elems.length).mapM (fun i => f elems[i]?)
      = ((List.range elems.length).map fun i => elems[i]?).mapM f := by
        rw [List.mapM_map]
        rfl
    _ = elems.mapM fun n => f (some n) := by
        rw [hindex, List.mapM_map]
        rfl

end YamlCpp
end SimpleHttpServer
