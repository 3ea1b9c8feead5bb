import ToiLang.TableAppend
import ToiLang.TableIterate

namespace ToiLang

section Elements

variable (hash : Bytes → UInt32)

/-- `t[i + 1]`. -/
def Table.element (t : Table) (i : Nat) : Value := t.contents hash (.number (Double.ofNat (i + 1)))

/-- `t[1]` to `t[n]`. -/
def Table.elements (t : Table) (n : Nat) : List Value := (List.range n).map (t.element hash)

/-- The table has values from `t[1]` to `t[n]` and none behind them. -/
structure Table.Sequence (t : Table) (n : Nat) : Prop where
  fits : n + 1 < 2 ^ 31
  values : ∀ i, i < n → t.element hash i ≠ .nil
  ends : t.element hash n = .nil

end Elements

section Element

variable {hash : Bytes → UInt32} {t t' : Table} {h : Bytes → Option Value}

theorem element_eq {i : Nat} (hi : i + 1 < 2 ^ 31) : t.element hash i =
    if t.slot i = .nil then t.hashValue hash (numberKeyString (Double.ofNat (i + 1))) else t.slot i := by
  unfold Table.element
  rw [contents_number, arrayValue_place (place_ofNat hi)]

theorem element_slot {i : Nat} (hi : i + 1 < 2 ^ 31) (hv : t.slot i ≠ .nil) :
    t.element hash i = t.slot i := by
  rw [element_eq hi, if_neg hv]

theorem hashValue_congr (hr : t.Represents hash h) (hr' : t'.Represents hash h) (s : Bytes) :
    t'.hashValue hash s = t.hashValue hash s := by
  rw [hashValue_eq hr, hashValue_eq hr']

/-- A key that is not an element up to `n` has its value from the places behind `n` and from the
hash part. -/
theorem contents_behind {n : Nat} (hslot : ∀ y, n ≤ y → t'.slot y = t.slot y)
    (hhash : ∀ s, t'.hashValue hash s = t.hashValue hash s) {k : KeyId}
    (hk : ∀ i, i < n → k ≠ .number (Double.ofNat (i + 1))) :
    t'.contents hash k = t.contents hash k := by
  cases k with
  | string s => rw [contents_string, contents_string, hhash]
  | number x =>
    have harray : t'.arrayValue (.number x) = t.arrayValue (.number x) := by
      cases hp : (KeyId.number x).place with
      | none => simp only [Table.arrayValue, hp]
      | some i =>
        obtain ⟨-, hx⟩ := KeyId.eq_ofNat hp
        have hle : n ≤ i := by
          by_contra hlt
          exact hk i (by omega) hx
        rw [arrayValue_place hp, arrayValue_place hp, hslot i hle]
    rw [contents_number, contents_number, harray, hhash]

theorem Table.Sequence.length_le {n : Nat} (hs : t.Sequence hash n) : t.sequenceLength ≤ n := by
  obtain ⟨-, hvalues, -⟩ := sequenceLength_spec t
  by_contra hlt
  have hv := hvalues n (by omega)
  have hend := hs.ends
  rw [element_slot hs.fits hv] at hend
  exact hv hend

@[simp] theorem length_elements (n : Nat) : (t.elements hash n).length = n := by
  simp [Table.elements]

end Element

namespace SampleTable

def two : Double := 0x4000000000000000

/-- `t[2] = 1; t[1] = 2` on a new table: the 1 is in the hash part. -/
def unsorted : Table :=
  ⟨1, List.replicate 3 ⟨none, .nil⟩ ++ ⟨some [0x1F, 110, 50], .number one⟩ ::
    List.replicate 4 ⟨none, .nil⟩, 1, .number two :: List.replicate 7 .nil, 1⟩

/-- `[2, 1]` -/
def descending : Table := tablePush (tablePush initTable (.number two)) (.number one)

theorem unsorted_elements : unsorted.elements host.hash 2 = [.number two, .number one] := by
  decide +kernel

theorem unsorted_sequence : unsorted.Sequence host.hash 2 := ⟨by decide, by decide +kernel, by decide +kernel⟩

theorem descending_formed : Formed host.hash descending := .push (.push .init)

theorem descending_elements : descending.elements host.hash 2 = [.number two, .number one] := rfl

theorem descending_sequence : descending.Sequence host.hash 2 := ⟨by decide, by decide, by decide⟩

theorem descending_sequenceLength : descending.sequenceLength = 2 := rfl

theorem numbers_two_one {v : Value} (hv : v ∈ [Value.number two, .number one]) : v = .number two ∨ v = .number one := by
  rcases List.mem_cons.mp hv with rfl | hv
  · exact .inl rfl
  · exact .inr (List.mem_singleton.mp hv)

end SampleTable

end ToiLang
