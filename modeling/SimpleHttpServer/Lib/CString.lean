import Mathlib.Data.Nat.Notation
import Mathlib.Data.List.TakeWhile
import Mathlib.Data.String.Basic

/-! Strings as C sees them.

A `std::string` is its bytes, and what a C function reads of its `c_str()` ends in front of the
first NUL. Neither cutting there nor encoding brings a NUL in: no byte of another character is
zero (`bytes_noNul`). -/
namespace SimpleHttpServer

/-- The bytes of a `std::string`. -/
def bytes (s : String) : List UInt8 := s.toList.flatMap String.utf8EncodeChar

/-- What a `const char*` points to. -/
structure CString where
  text : String
  noNul : '\x00' ∉ text.toList

/-- What a C function reads of `s.c_str()`: the characters in front of the first NUL. -/
def cStr (s : String) : CString where
  text := String.ofList (s.toList.takeWhile (· != '\x00'))
  noNul := by
    intro hin
    rw [String.toList_ofList] at hin
    simpa using List.mem_takeWhile_imp hin

theorem ofNat_ne_zero {m : ℕ} (h : m % 256 ≠ 0) : 0 ≠ UInt8.ofNat m := by
  intro heq
  apply h
  have hnat := congrArg UInt8.toNat heq
  rw [UInt8.toNat_ofNat'] at hnat
  exact hnat.symm

/-- No byte of another character is a NUL. -/
theorem zero_notMem_utf8EncodeChar {c : Char} (h : c ≠ '\x00') : 0 ∉ String.utf8EncodeChar c := by
  have hpos : c.val.toNat ≠ 0 := by
    intro hzero
    exact h (Char.ext (UInt32.toNat_inj.mp hzero))
  have hbyte : ∀ {m k : ℕ}, 128 ≤ k → m + k < 256 → 0 ≠ UInt8.ofNat (m + k) := by
    intro m k hk hlt
    apply ofNat_ne_zero
    omega
  unfold String.utf8EncodeChar
  dsimp only
  split
  · have hfirst := @ofNat_ne_zero c.val.toNat (by omega)
    simpa using hfirst
  · split
    · simp only [List.mem_cons, List.not_mem_nil, or_false, not_or]
      and_intros <;> exact hbyte (by omega) (by omega)
    · split
      · simp only [List.mem_cons, List.not_mem_nil, or_false, not_or]
        and_intros <;> exact hbyte (by omega) (by omega)
      · simp only [List.mem_cons, List.not_mem_nil, or_false, not_or]
        and_intros <;> exact hbyte (by omega) (by omega)

theorem bytes_noNul (s : CString) : 0 ∉ bytes s.text := by
  intro hin
  obtain ⟨c, hc, hzero⟩ := List.mem_flatMap.mp hin
  apply zero_notMem_utf8EncodeChar _ hzero
  intro heq
  exact s.noNul (heq ▸ hc)

/-- A character has at least one byte. -/
theorem length_le_bytes (s : String) : s.length ≤ (bytes s).length := by
  rw [← String.length_toList]
  unfold bytes
  induction s.toList with
  | nil => simp
  | cons c rest ih =>
    have hpos := c.utf8Size_pos
    rw [List.flatMap_cons, List.length_append, List.length_cons, String.length_utf8EncodeChar]
    omega

/-- A string without a NUL is its own C string. -/
theorem cStr_eq {s : String} (h : '\x00' ∉ s.toList) : cStr s = ⟨s, h⟩ := by
  have hall : ∀ c ∈ s.toList, (c != '\x00') = true := by
    intro c hc
    have hne : c ≠ '\x00' := fun heq => h (heq ▸ hc)
    simpa using hne
  simp only [cStr, List.takeWhile_eq_self_iff.mpr hall, String.ofList_toList]

end SimpleHttpServer
