import Mathlib.Algebra.BigOperators.Ring.List
import Mathlib.Algebra.Order.BigOperators.Group.List
import Mathlib.Tactic.Ring
import ToiLang.Chunk

namespace ToiLang

/-- The lowest `k` bytes of a number, the lowest first. -/
def leBytes (k n : Nat) : Bytes := (List.range k).map fun i => UInt8.ofNat (n / 256 ^ i)

def leValue (k : Nat) (p : Bytes) : Nat :=
  ((List.range k).map fun i => (p.getD i 0).toNat * 256 ^ i).sum

/-- The number whose bytes are read the highest first. -/
def beValue (p : Bytes) : Nat := p.foldl (fun u c => u * 256 + c.toNat) 0

theorem leBytes_sum (k n : Nat) :
    ((List.range k).map fun i => n / 256 ^ i % 256 * 256 ^ i).sum = n % 256 ^ k := by
  induction k with
  | zero => simp [Nat.mod_one]
  | succ k ih =>
    rw [List.range_succ, List.map_append, List.sum_append, ih, Nat.mod_pow_succ]
    simp [Nat.mul_comm]

@[simp] theorem leBytes_length (k n : Nat) : (leBytes k n).length = k := by simp [leBytes]

theorem leValue_leBytes (k n : Nat) (rest : Bytes) :
    leValue k (leBytes k n ++ rest) = n % 256 ^ k := by
  rw [← leBytes_sum]
  unfold leValue
  congr 1
  apply List.map_congr_left
  intro i hi
  have hik : i < k := List.mem_range.mp hi
  have hget : (leBytes k n ++ rest).getD i 0 = UInt8.ofNat (n / 256 ^ i) := by
    rw [List.getD_eq_getElem?_getD, List.getElem?_append_left (by simpa using hik)]
    simp [leBytes, hik]
  rw [hget, UInt8.toNat_ofNat']

theorem foldl_leBytes_reverse (k n u : Nat) :
    (leBytes k n).reverse.foldl (fun u c => u * 256 + c.toNat) u = u * 256 ^ k + n % 256 ^ k := by
  induction k generalizing u with
  | zero => simp [leBytes, Nat.mod_one]
  | succ k ih =>
    have hbytes : leBytes (k + 1) n = leBytes k n ++ [UInt8.ofNat (n / 256 ^ k)] := by
      simp [leBytes, List.range_succ]
    have hmod : n % 256 ^ (k + 1) = n % 256 ^ k + 256 ^ k * (n / 256 ^ k % 256) := Nat.mod_pow_succ
    rw [hbytes, List.reverse_append, List.reverse_singleton, List.singleton_append, List.foldl_cons, ih,
      UInt8.toNat_ofNat', hmod]
    ring

theorem beValue_leBytes_reverse (k n : Nat) : beValue (leBytes k n).reverse = n % 256 ^ k := by
  have h := foldl_leBytes_reverse k n 0
  rwa [Nat.zero_mul, Nat.zero_add] at h

theorem leBytes_succ (k n : Nat) : leBytes (k + 1) n = UInt8.ofNat n :: leBytes k (n / 256) := by
  have hshift : ∀ i, n / 256 ^ (i + 1) = n / 256 / 256 ^ i := by
    intro i
    rw [Nat.pow_succ', Nat.div_div_eq_div_mul]
  simp [leBytes, List.range_succ_eq_map, hshift]

theorem leValue_cons (k : Nat) (c : UInt8) (p : Bytes) :
    leValue (k + 1) (c :: p) = c.toNat + 256 * leValue k p := by
  have hshift : ∀ i, (p.getD i 0).toNat * 256 ^ (i + 1) = 256 * ((p.getD i 0).toNat * 256 ^ i) := by
    intro i
    ring
  have hmap : (List.range k).map ((fun i => ((c :: p).getD i 0).toNat * 256 ^ i) ∘ Nat.succ) =
      (List.range k).map fun i => 256 * ((p.getD i 0).toNat * 256 ^ i) :=
    List.map_congr_left fun i _ => hshift i
  simp only [leValue, List.range_succ_eq_map, List.map_cons, List.map_map, List.sum_cons,
    List.getD_cons_zero, Nat.pow_zero, Nat.mul_one, hmap, List.sum_map_mul_left]

/-- The bytes of a number that was read are those that it was read from. -/
theorem leBytes_leValue {k : Nat} {p : Bytes} (h : k ≤ p.length) : leBytes k (leValue k p) = p.take k := by
  induction k generalizing p with
  | zero => simp [leBytes]
  | succ k ih =>
    cases p with
    | nil => simp at h
    | cons c p =>
      have hc := c.toNat_lt
      have hmod : UInt8.ofNat (c.toNat + 256 * leValue k p) = c := by
        apply UInt8.toNat_inj.mp
        rw [UInt8.toNat_ofNat']
        omega
      have hdiv : (c.toNat + 256 * leValue k p) / 256 = leValue k p := by omega
      rw [leValue_cons, leBytes_succ, hmod, hdiv, ih (Nat.le_of_succ_le_succ h), List.take_succ_cons]

theorem leValue_lt (k : Nat) (p : Bytes) : leValue k p < 256 ^ k := by
  induction k generalizing p with
  | zero => simp [leValue]
  | succ k ih =>
    cases p with
    | nil => simp [leValue]
    | cons c p =>
      have hc := c.toNat_lt
      have hp := ih p
      rw [leValue_cons, Nat.pow_succ]
      omega

end ToiLang
