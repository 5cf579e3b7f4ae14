import Mathlib.Data.List.Fold
import Mathlib.Data.List.Perm.Basic
import UrReplay.Bytes
/-!
# UrReplay.Proofs.Xor

The exclusive or of byte strings of one length is a group in which every element is its own
inverse. `xorAll` folds a list of them, so its value does not depend on their order, and what occurs
on both sides of a sum cancels (`xor_xor_cancel`).
-/

namespace UrReplay.Bytes

theorem xor_comm (a b : Bytes) : xor a b = xor b a :=
  List.zipWith_comm_of_comm fun x y => UInt8.xor_comm x y

theorem xor_assoc (a b c : Bytes) : xor (xor a b) c = xor a (xor b c) := by
  induction a generalizing b c with
  | nil => rfl
  | cons x a ih =>
    cases b with
    | nil => rfl
    | cons y b =>
      cases c with
      | nil => rfl
      | cons z c =>
        have htail := ih b c
        simp only [xor] at htail
        simp only [xor, List.zipWith_cons_cons, htail, UInt8.xor_assoc]

theorem xor_left_comm (a b c : Bytes) : xor a (xor b c) = xor b (xor a c) := by
  rw [← xor_assoc, xor_comm a b, xor_assoc]

/-- As many zeros as `len` says. -/
def zeros (len : Nat) : Bytes := List.replicate len 0

@[simp] theorem length_zeros (len : Nat) : (zeros len).length = len := by
  simp [zeros]

theorem zeros_succ (len : Nat) : zeros (len + 1) = 0 :: zeros len := rfl

@[simp] theorem xor_self (a : Bytes) : xor a a = zeros a.length := by
  induction a with
  | nil => rfl
  | cons x a ih =>
    simp only [xor] at ih
    simp only [xor, List.zipWith_cons_cons, UInt8.xor_self, ih, List.length_cons, zeros_succ]

theorem xor_zeros {a : Bytes} {len : Nat} (h : a.length = len) : xor a (zeros len) = a := by
  subst h
  induction a with
  | nil => rfl
  | cons x a ih =>
    simp only [xor] at ih
    simp only [List.length_cons, zeros_succ, xor, List.zipWith_cons_cons, UInt8.xor_zero, ih]

theorem zeros_xor {a : Bytes} {len : Nat} (h : a.length = len) : xor (zeros len) a = a := by
  rw [xor_comm, xor_zeros h]

/-- Adding the same bytes twice changes nothing. -/
theorem xor_xor_cancel {a b : Bytes} (h : a.length = b.length) : xor (xor a b) b = a := by
  rw [xor_assoc, xor_self, xor_zeros h]

/-- What two sums have in common cancels. -/
theorem xor_xor_xor_cancel {a b : Bytes} (c : Bytes) (h : b.length = a.length) :
    xor (xor a b) (xor a c) = xor b c := by
  rw [xor_comm a b, xor_assoc, ← xor_assoc a, xor_self, ← xor_assoc, xor_zeros h]

/-! ### Sums of many byte strings -/

/-- The exclusive or of byte strings of length `len`. -/
def xorAll (len : Nat) (summands : List Bytes) : Bytes := summands.foldr xor (zeros len)

@[simp] theorem xorAll_nil (len : Nat) : xorAll len [] = zeros len := rfl

@[simp] theorem xorAll_cons (len : Nat) (a : Bytes) (l : List Bytes) :
    xorAll len (a :: l) = xor a (xorAll len l) := rfl

theorem length_xorAll {len : Nat} {l : List Bytes} (h : ∀ a ∈ l, a.length = len) :
    (xorAll len l).length = len := by
  induction l with
  | nil => simp
  | cons a l ih =>
    obtain ⟨ha, hl⟩ := List.forall_mem_cons.1 h
    rw [xorAll_cons, length_xor, ha, ih hl, Nat.min_self]

theorem xorAll_append {len : Nat} {l l' : List Bytes} (h : ∀ a ∈ l', a.length = len) :
    xorAll len (l ++ l') = xor (xorAll len l) (xorAll len l') := by
  induction l with
  | nil => rw [List.nil_append, xorAll_nil, zeros_xor (length_xorAll h)]
  | cons a l ih => rw [List.cons_append, xorAll_cons, ih, xorAll_cons, xor_assoc]

theorem xorAll_singleton {len : Nat} {a : Bytes} (h : a.length = len) : xorAll len [a] = a :=
  xor_zeros h

theorem xorAll_perm {len : Nat} {l l' : List Bytes} (h : l.Perm l') :
    xorAll len l = xorAll len l' :=
  have : LeftCommutative (xor : Bytes → Bytes → Bytes) := ⟨xor_left_comm⟩
  h.foldr_eq _

/-- Adding summands from the left to zeros, in their place, gives the same sum. -/
theorem foldl_xorInto_zeros {len : Nat} {l : List Bytes} (h : ∀ a ∈ l, a.length = len) :
    l.foldl xorInto (zeros len) = xorAll len l := by
  have hinto (target : Bytes) (htarget : target.length = len) :
      l.foldl xorInto target = l.foldl xor target := by
    induction l generalizing target with
    | nil => rfl
    | cons a l ih =>
      obtain ⟨ha, hl⟩ := List.forall_mem_cons.1 h
      have hsum : xorInto target a = xor target a :=
        xorInto_of_length_le (Nat.le_of_eq (htarget.trans ha.symm))
      rw [List.foldl_cons, List.foldl_cons, hsum]
      refine ih hl _ ?_
      rw [length_xor, htarget, ha, Nat.min_self]
  have : Std.Commutative (xor : Bytes → Bytes → Bytes) := ⟨xor_comm⟩
  have : Std.Associative (xor : Bytes → Bytes → Bytes) := ⟨xor_assoc⟩
  rw [hinto _ (length_zeros len)]
  exact List.foldl_eq_foldr

end UrReplay.Bytes
