import ToiLang.Contents

namespace ToiLang

/-- The tables at their addresses; from `next` on there is none. -/
structure TableHeap where
  tables : Nat → Table
  next : Nat

namespace TableHeap

def set (H : TableHeap) (a : Nat) (t : Table) : TableHeap :=
  { H with tables := Function.update H.tables a t }

/-- `new_table` at the address `next`. -/
def newTable (H : TableHeap) : TableHeap :=
  ⟨Function.update H.tables H.next initTable, H.next + 1⟩

theorem set_self (H : TableHeap) (a : Nat) (t : Table) : (H.set a t).tables a = t := by
  unfold set
  exact Function.update_self ..

theorem set_of_ne (H : TableHeap) {a b : Nat} (t : Table) (hb : b ≠ a) :
    (H.set a t).tables b = H.tables b := by
  unfold set
  exact Function.update_of_ne hb ..

end TableHeap

/-- A relation to the values of a store that changes outside of what a value unfolds to leave
alone. -/
def Framed {X : Type} (R : (Nat → KeyId → Value) → X → Value → Prop) : Prop :=
  ∀ G G' x v lo hi, R G x v → Within Value.ref lo hi v → Upward Value.ref lo hi G →
    (∀ b, lo ≤ b → b < hi → G' b = G b) → R G' x v

section Fresh

variable {X : Type} {R : (Nat → KeyId → Value) → X → Value → Prop} {hash : Bytes → UInt32}
  {H₀ H H' : TableHeap} {x : X} {v : Value} {a : Nat} {m : KeyId → X}

/-- The addresses from `lo` on hold tables that refer upwards. -/
structure Sound (hash : Bytes → UInt32) (lo : Nat) (H : TableHeap) : Prop where
  upward : Upward Value.ref lo H.next (contentsOf hash H.tables)
  represents : ∀ b, lo ≤ b → b < H.next → ∃ h, (H.tables b).Represents hash h

/-- A value made of new tables that stands for `x`. -/
structure Made (hash : Bytes → UInt32) (R : (Nat → KeyId → Value) → X → Value → Prop)
    (H H' : TableHeap) (x : X) (v : Value) : Prop where
  grows : H.next ≤ H'.next
  frame : ∀ b, b < H.next → H'.tables b = H.tables b
  sound : Sound hash H.next H'
  within : Within Value.ref H.next H'.next v
  stands : R (contentsOf hash H'.tables) x v

/-- A new table at `a` whose values stand for those of `m`. -/
structure Filled (hash : Bytes → UInt32) (R : (Nat → KeyId → Value) → X → Value → Prop)
    (H₀ H : TableHeap) (m : KeyId → X) : Prop where
  grows : H₀.next < H.next
  frame : ∀ b, b < H₀.next → H.tables b = H₀.tables b
  sound : Sound hash H₀.next H
  stands : ∀ k, R (contentsOf hash H.tables) (m k) (contentsOf hash H.tables H₀.next k)

theorem Made.leaf (h : Sound hash H.next H) (hv : v.ref = none) (hR : R (contentsOf hash H.tables) x v) :
    Made hash R H H x v where
  grows := Nat.le_refl _
  frame := fun _ _ => rfl
  sound := h
  within := .leaf hv
  stands := hR

theorem sound_next (H : TableHeap) : Sound hash H.next H where
  upward := fun b hlo hhi => absurd hhi (by omega)
  represents := fun b hlo hhi => absurd hhi (by omega)

theorem initTable_contents (k : KeyId) : initTable.contents hash k = .nil := by
  cases k with
  | string s =>
    rw [contents_string, hashValue_eq initTable_represents]
    exact ite_self _
  | number x =>
    have hnil : initTable.arrayValue (.number x) = .nil := by
      unfold Table.arrayValue
      split <;> rfl
    rw [contents_number, hnil, hashValue_eq initTable_represents]
    rfl

theorem Filled.new (hnil : ∀ G, R G x .nil) : Filled hash R H H.newTable fun _ => x where
  grows := Nat.lt_succ_self _
  frame := fun b hb => Function.update_of_ne (by omega) _ _
  sound := by
    have hnew : H.newTable.tables H.next = initTable := Function.update_self _ _ _
    constructor
    · intro b hlo hhi k c hc
      have hb : b = H.next := by
        change b < H.next + 1 at hhi
        omega
      rw [contentsOf, hb, hnew, initTable_contents] at hc
      cases hc
    · intro b hlo hhi
      have hb : b = H.next := by
        change b < H.next + 1 at hhi
        omega
      rw [hb, hnew]
      exact ⟨_, initTable_represents⟩
  stands := by
    intro k
    have hnew : H.newTable.tables H.next = initTable := Function.update_self _ _ _
    have hk : contentsOf hash H.newTable.tables H.next k = .nil := by
      rw [contentsOf, hnew, initTable_contents]
    rw [hk]
    exact hnil _

/-- What is made behind a new table leaves it alone. -/
theorem Filled.mono (hR : Framed R) (hf : Filled hash R H₀ H m) (hm : Made hash R H H' x v) :
    Filled hash R H₀ H' m := by
  have hlt := hf.grows
  have hgrows := hm.grows
  have hold : ∀ b, b < H.next → contentsOf hash H'.tables b = contentsOf hash H.tables b := by
    intro b hb
    rw [contentsOf, contentsOf, hm.frame b hb]
  refine ⟨by omega, fun b hb => ?_, ⟨fun b hlo hhi k c hc => ?_, fun b hlo hhi => ?_⟩, fun k => ?_⟩
  · rw [hm.frame b (by omega), hf.frame b hb]
  · by_cases hb : b < H.next
    · rw [hold b hb] at hc
      have := hf.sound.upward b hlo hb k c hc
      omega
    · exact hm.sound.upward b (by omega) hhi k c hc
  · by_cases hb : b < H.next
    · rw [hm.frame b hb]
      exact hf.sound.represents b hlo hb
    · exact hm.sound.represents b (by omega) hhi
  · rw [hold H₀.next hlt]
    exact hR _ _ _ _ H₀.next H.next (hf.stands k)
      (fun c hc => by have := hf.sound.upward H₀.next (Nat.le_refl _) hlt k c hc; omega)
      hf.sound.upward fun b _ hhi => hold b hhi

/-- A write to the new table of a value behind it. -/
theorem Filled.set (hR : Framed R) (hf : Filled hash R H₀ H m)
    (hw : Within Value.ref (H₀.next + 1) H.next v) (hx : R (contentsOf hash H.tables) x v)
    {t' : Table} {h' : Bytes → Option Value} {k : KeyId} (hr : t'.Represents hash h')
    (hc : ∀ k', t'.contents hash k' =
      if k'.label = k.label then v else (H.tables H₀.next).contents hash k') :
    Filled hash R H₀ (H.set H₀.next t') fun k' => if k'.label = k.label then x else m k' := by
  have hlt := hf.grows
  have hold : ∀ b, b ≠ H₀.next →
      contentsOf hash (H.set H₀.next t').tables b = contentsOf hash H.tables b := by
    intro b hb
    rw [contentsOf, contentsOf, TableHeap.set_of_ne _ _ hb]
  have hself : ∀ k', contentsOf hash (H.set H₀.next t').tables H₀.next k' =
      if k'.label = k.label then v else contentsOf hash H.tables H₀.next k' := by
    intro k'
    rw [contentsOf, TableHeap.set_self, hc k']
    rfl
  have hup : Upward Value.ref (H₀.next + 1) H.next (contentsOf hash H.tables) :=
    fun b hlo hhi => hf.sound.upward b (by omega) hhi
  refine ⟨hlt, fun b hb => ?_, ⟨fun b hlo hhi k' c hc' => ?_, fun b hlo hhi => ?_⟩, fun k' => ?_⟩
  · rw [TableHeap.set_of_ne _ _ (by omega), hf.frame b hb]
  · change b < c ∧ c < H.next
    by_cases hb : b = H₀.next
    · rw [hb, hself] at hc'
      split at hc'
      next =>
        have := hw c hc'
        omega
      next =>
        have := hf.sound.upward H₀.next (Nat.le_refl _) hlt k' c hc'
        omega
    · rw [hold b hb] at hc'
      exact hf.sound.upward b hlo hhi k' c hc'
  · by_cases hb : b = H₀.next
    · rw [hb, TableHeap.set_self]
      exact ⟨h', hr⟩
    · rw [TableHeap.set_of_ne _ _ hb]
      exact hf.sound.represents b hlo hhi
  · rw [hself k']
    split
    next => exact hR _ _ _ _ _ _ hx hw hup fun b hlo _ => hold b (by omega)
    next =>
      refine hR _ _ _ _ (H₀.next + 1) H.next (hf.stands k') (fun c hc => ?_) hup
        fun b hlo _ => hold b (by omega)
      have := hf.sound.upward H₀.next (Nat.le_refl _) hlt k' c hc
      omega

/-- A write of a value made since to the new table. -/
theorem Filled.write (hR : Framed R) (hf : Filled hash R H₀ H m) (hm : Made hash R H H' x v)
    {t' : Table} {h' : Bytes → Option Value} {k : KeyId} (hr : t'.Represents hash h')
    (hc : ∀ k', t'.contents hash k' =
      if k'.label = k.label then v else (H.tables H₀.next).contents hash k') :
    Filled hash R H₀ (H'.set H₀.next t') fun k' => if k'.label = k.label then x else m k' := by
  have hlt := hf.grows
  refine (hf.mono hR hm).set hR (hm.within.mono hlt (Nat.le_refl _)) hm.stands hr ?_
  rwa [hm.frame _ hlt]

/-- The new table when all is written. -/
theorem Filled.made (hf : Filled hash R H₀ H m)
    (hR : R (contentsOf hash H.tables) x (.table H₀.next)) :
    Made hash R H₀ H x (.table H₀.next) where
  grows := hf.grows.le
  frame := hf.frame
  sound := hf.sound
  within := by
    intro c hc
    cases hc
    exact ⟨Nat.le_refl _, hf.grows⟩
  stands := hR

end Fresh

end ToiLang
