import Mathlib.Data.String.Basic
import Mathlib.Tactic.SplitIfs
import Trivalent.Proofs.Places

/-!
# The order of texts and of their bytes

Texts are compared character by character, and their bytes are compared byte by byte. Both orders
are the same, because the first byte of a character grows with the number of its bytes and the
others are its digits to base 64.

* `leadByte`, `continuation` -- the first byte of a character and the others;
* `utf8EncodeChar_lt` -- a smaller character has smaller bytes, whatever comes after it;
* `bytes_lt` -- **a smaller text has smaller bytes**.
-/

namespace Trivalent

/-- The bytes of a text. -/
def bytes (text : String) : List UInt8 := text.toByteArray.data.toList

/-! ## 1. The bytes of a character -/

/-- How many bytes of a character come after the first one. -/
def tailLength (n : Nat) : Nat :=
  if n ≤ 127 then 0 else if n ≤ 2047 then 1 else if n ≤ 65535 then 2 else 3

/-- The first byte of a character. -/
def leadByte (n : Nat) : Nat :=
  if n ≤ 127 then n else if n ≤ 2047 then n / 64 + 192 else if n ≤ 65535 then n / 4096 + 224
  else n / 262144 + 240

/-- The bytes of a character after the first one: its last `k` digits to base 64. -/
def continuation (n : Nat) : Nat → List UInt8
  | 0 => []
  | k + 1 => UInt8.ofNat (n / 64 ^ k % 64 + 128) :: continuation n k

theorem toNat_lt (c : Char) : c.val.toNat < 1114112 := by
  rcases c.valid with h | h <;> omega

theorem utf8EncodeChar_eq (c : Char) : String.utf8EncodeChar c
    = UInt8.ofNat (leadByte c.val.toNat) :: continuation c.val.toNat (tailLength c.val.toNat) := by
  have hc := toNat_lt c
  unfold String.utf8EncodeChar leadByte tailLength
  generalize c.val.toNat = n at hc
  dsimp only
  split
  · rfl
  · split
    · rw [Nat.mod_eq_of_lt (show n / 64 < 32 by omega)]
      simp [continuation]
    · split
      · rw [Nat.mod_eq_of_lt (show n / 4096 < 16 by omega)]
        simp [continuation]
      · rw [Nat.mod_eq_of_lt (show n / 262144 < 8 by omega)]
        simp [continuation]

theorem leadByte_lt {n : Nat} (h : n < 1114112) : leadByte n < 256 := by
  unfold leadByte
  split_ifs <;> omega

/-- The first bytes of two characters differ, or they stand for the same first digits of equally
many ones. -/
theorem leadByte_cases {m n : Nat} (hlt : m < n) (hn : n < 1114112) :
    leadByte m < leadByte n ∨ leadByte m = leadByte n ∧ tailLength m = tailLength n
      ∧ m / 64 ^ tailLength m = n / 64 ^ tailLength m := by
  unfold leadByte tailLength
  split_ifs <;> omega

theorem cons_lt_cons_of_nat {m n : Nat} {r r' : List UInt8} (hm : m < 256) (hn : n < 256)
    (h : m < n ∨ m = n ∧ r < r') : UInt8.ofNat m :: r < UInt8.ofNat n :: r' := by
  rw [List.cons_lt_cons_iff, UInt8.lt_iff_toNat_lt, ← UInt8.toNat_inj,
    UInt8.toNat_ofNat_of_lt' hm, UInt8.toNat_ofNat_of_lt' hn]
  exact h

/-- Where the digits before them agree, the last `k` digits decide. -/
theorem continuation_lt {m n : Nat} (hlt : m < n) (r r' : List UInt8) (k : Nat)
    (h : m / 64 ^ k = n / 64 ^ k) : continuation m k ++ r < continuation n k ++ r' := by
  induction k with
  | zero =>
      rw [pow_zero, Nat.div_one, Nat.div_one] at h
      omega
  | succ k ih =>
      rw [pow_succ, ← Nat.div_div_eq_div_mul, ← Nat.div_div_eq_div_mul] at h
      have hle : m / 64 ^ k ≤ n / 64 ^ k := Nat.div_le_div_right hlt.le
      refine cons_lt_cons_of_nat (by omega) (by omega) ?_
      by_cases hdigit : m / 64 ^ k = n / 64 ^ k
      · exact .inr ⟨by rw [hdigit], ih hdigit⟩
      · exact .inl (by omega)

/-- A smaller character has smaller bytes, whatever comes after it. -/
theorem utf8EncodeChar_lt {c d : Char} (h : c < d) (r r' : List UInt8) :
    String.utf8EncodeChar c ++ r < String.utf8EncodeChar d ++ r' := by
  have hlt : c.val.toNat < d.val.toNat := h
  rw [utf8EncodeChar_eq, utf8EncodeChar_eq]
  refine cons_lt_cons_of_nat (leadByte_lt (toNat_lt c)) (leadByte_lt (toNat_lt d)) ?_
  refine (leadByte_cases hlt (toNat_lt d)).imp_right fun ⟨hlead, htail, hrest⟩ => ⟨hlead, ?_⟩
  rw [← htail]
  exact continuation_lt hlt r r' _ hrest

/-! ## 2. The bytes of a text -/

/-- **A smaller text has smaller bytes.** -/
theorem bytes_lt {x y : String} (h : x < y) : bytes x < bytes y := by
  have hbytes : ∀ text : String, bytes text = text.toList.flatMap String.utf8EncodeChar := by
    intro text
    have h := bytes_ofList text.toList
    rwa [String.ofList_toList] at h
  have hlt : x.toList < y.toList := h
  rw [hbytes, hbytes]
  generalize x.toList = cs at hlt
  generalize y.toList = ds at hlt
  induction cs generalizing ds with
  | nil =>
      cases ds with
      | nil => exact absurd hlt (lt_irrefl _)
      | cons d ds =>
          rw [List.flatMap_cons, utf8EncodeChar_eq]
          exact List.nil_lt_cons _ _
  | cons c cs ih =>
      cases ds with
      | nil => exact absurd hlt (List.not_lt_nil _)
      | cons d ds =>
          rw [List.flatMap_cons, List.flatMap_cons]
          rcases List.cons_lt_cons_iff.mp hlt with hfirst | ⟨rfl, hrest⟩
          · exact utf8EncodeChar_lt hfirst _ _
          · exact List.append_left_lt (ih _ hrest)

end Trivalent
