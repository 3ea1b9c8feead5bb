import ToiLang.Decimal
import ToiLang.TableAccess

namespace ToiLang

/-- The value of a key, and whether it is there to be deleted. -/
def Host.observe (H : Host) (t : Table) (key : Key) (obj : Nat) : Option (Value × Bool) := do
  let (_, value) ← H.getTable ⟨t, fun _ => none⟩ 0 key obj
  let (_, found) ← H.deleteTable ⟨t, fun _ => none⟩ key
  return (value, found)

/-- A change of a table that a key does not show. -/
def Unaffected (H : Host) (t t' : Table) (key : Key) : Prop :=
  ∀ obj, H.observe t' key obj = H.observe t key obj

/-- A string, or a finite number that is not negative. -/
def Key.Finite : Key → Prop
  | string _ => True
  | number num => num.IsFinite ∧ (num.isZero = true ∨ num.negative = false)

/-- A number and the string that encodes it. -/
def Collide (H : Host) (k₁ k₂ : KeyId) : Prop :=
  ∃ x, k₁ = .number x ∧ k₂ = .string (H.numberKeyString x) ∨
    k₂ = .number x ∧ k₁ = .string (H.numberKeyString x)

section Run

variable {H : Host} {o : TableObject} {t t' : Table} {h h' : Bytes → Option Value}

theorem Key.Finite.nonNegative {key : Key} (hf : key.Finite) : key.NonNegative := by
  cases key with
  | string key => trivial
  | number num => exact hf.2

theorem normalize_finite {num : Double} (hf : (Key.number num).Finite) :
    num.normalize.IsFinite ∧ num.normalize.negative = false := by
  unfold Double.normalize
  split
  next => exact ⟨by decide, by decide⟩
  next hz =>
    obtain ⟨hfin, hz' | hn⟩ := hf
    · exact absurd hz' hz
    · exact ⟨hfin, hn⟩

/-- The encoding tells finite numbers apart. -/
theorem numberKeyString_inj (hg : H.numberText = Double.formatG17) {x y : Double}
    (hx : (Key.number x).Finite) (hy : (Key.number y).Finite)
    (h : H.numberKeyString x = H.numberKeyString y) : x.normalize = y.normalize := by
  obtain ⟨hxf, hxn⟩ := normalize_finite hx
  obtain ⟨hyf, hyn⟩ := normalize_finite hy
  have htext : H.numberText x.normalize = H.numberText y.normalize :=
    (List.cons.inj (List.cons.inj h).2).2
  rw [hg, Double.formatG17_eq hxf hxn, Double.formatG17_eq hyf hyn] at htext
  exact Double.magnitudeText_inj hxf hyf hxn hyn htext

/-- The hash part takes two keys for one when one is the encoding of the other. -/
theorem text_eq_iff (hg : H.numberText = Double.formatG17) {key₁ key₂ : Key} (h₁ : key₁.Finite)
    (h₂ : key₂.Finite) (hne : key₁.id H ≠ key₂.id H) :
    (key₁.id H).text H = (key₂.id H).text H ↔ Collide H (key₁.id H) (key₂.id H) := by
  constructor
  · intro htext
    cases key₁ with
    | string a =>
      cases key₂ with
      | string b => exact absurd (congrArg KeyId.string htext) hne
      | number y => exact ⟨_, .inr ⟨rfl, congrArg KeyId.string htext⟩⟩
    | number x =>
      cases key₂ with
      | string b => exact ⟨_, .inl ⟨rfl, congrArg KeyId.string htext.symm⟩⟩
      | number y =>
        rw [text_eq, text_eq] at htext
        exact absurd (congrArg KeyId.number (numberKeyString_inj hg h₁ h₂ htext)) hne
  · rintro ⟨x, ⟨h₁, h₂⟩ | ⟨h₂, h₁⟩⟩
    · rw [h₁, h₂]
      rfl
    · rw [h₁, h₂]
      rfl

/-- What the hash part and the array part show of a key. -/
theorem observe_eq (hr : t.Represents H.hash h) {key : Key} (hn : key.NonNegative) (obj : Nat) :
    H.observe t key obj =
      some (H.maybeBindSelf obj (t.content H h (key.id H)),
        decide (t.arrayValue (key.id H) ≠ .nil) || (h ((key.id H).text H)).isSome) := by
  obtain ⟨o₁, ho₁⟩ := getTable_uncached (o := ⟨t, fun _ => none⟩) hr 0 obj hn rfl
  have hdel : ∃ o₂, H.deleteTable ⟨t, fun _ => none⟩ key =
      some (o₂, decide (t.arrayValue (key.id H) ≠ .nil) || (h ((key.id H).text H)).isSome) := by
    by_cases hnil : t.arrayValue (key.id H) = .nil
    · obtain ⟨t', ht', -⟩ := tableDelete_spec hr ((key.id H).text H)
      refine ⟨⟨t', fun _ => none⟩, ?_⟩
      rw [deleteTable_hash _ hn hnil]
      simp [Host.deleteHash, ht', hnil]
    · obtain ⟨t', i, ht', -⟩ := deleteTable_array (o := ⟨t, fun _ => none⟩) hr hn hnil
      exact ⟨⟨t', fun _ => none⟩, by rw [ht']; simp [hnil]⟩
  obtain ⟨o₂, ho₂⟩ := hdel
  simp [Host.observe, ho₁, ho₂]

/-- A read tells values apart, whatever address a bound method gets. -/
theorem maybeBindSelf_inj {v w : Value}
    (h : ∀ obj, H.maybeBindSelf obj v = H.maybeBindSelf obj w) : v = w := by
  have h₀ := h 0
  have h₁ := h 1
  unfold Host.maybeBindSelf at h₀ h₁
  split at h₀
  next hv =>
    rw [if_pos hv] at h₁
    split at h₀
    next => exact h₀
    next hw =>
      rw [if_neg hw] at h₁
      split at h₀
      next hws =>
        rw [if_pos hws] at h₁
        rw [h₀] at h₁
        cases h₁
      next => exact h₀
  next hv =>
    rw [if_neg hv] at h₁
    split at h₀
    next hvs =>
      rw [if_pos hvs] at h₁
      split at h₀
      next hw =>
        rw [if_pos hw, ← h₀] at h₁
        cases h₁
      next hw =>
        rw [if_neg hw] at h₁
        split at h₀
        next =>
          cases h₀
          rfl
        next hws =>
          rw [if_neg hws, ← h₀] at h₁
          cases h₁
    next hvs =>
      rw [if_neg hvs] at h₁
      split at h₀
      next hw => exact h₀
      next hw =>
        rw [if_neg hw] at h₁
        split at h₀
        next hws =>
          rw [if_pos hws] at h₁
          rw [h₀] at h₁
          cases h₁
        next => exact h₀

theorem unaffected_iff (hr : t.Represents H.hash h) (hr' : t'.Represents H.hash h') {key : Key}
    (hn : key.NonNegative) :
    Unaffected H t t' key ↔ t'.content H h' (key.id H) = t.content H h (key.id H) ∧
      (decide (t'.arrayValue (key.id H) ≠ .nil) || (h' ((key.id H).text H)).isSome) =
        (decide (t.arrayValue (key.id H) ≠ .nil) || (h ((key.id H).text H)).isSome) := by
  unfold Unaffected
  simp only [observe_eq hr hn, observe_eq hr' hn, Option.some.injEq, Prod.mk.injEq]
  constructor
  · intro hu
    exact ⟨maybeBindSelf_inj fun obj => (hu obj).1, (hu 0).2⟩
  · rintro ⟨hv, hp⟩ obj
    exact ⟨by rw [hv], hp⟩

/-- A write to the place of one key in the array part. -/
theorem unaffected_array {k : KeyId} {i : Nat} {v : Value} {key : Key}
    (hr : t.Represents H.hash h) (hr' : t'.Represents H.hash h) (hn : key.NonNegative)
    (hp : k.place = some i) (hslot : ∀ j, t'.slot j = Function.update t.slot i v j)
    (hne : k ≠ key.id H) : Unaffected H t t' key := by
  have hval : t'.arrayValue (key.id H) = t.arrayValue (key.id H) := by
    rw [arrayValue_update hp hslot, Function.update_of_ne (Ne.symm hne)]
  rw [unaffected_iff hr hr' hn]
  unfold Table.content
  rw [hval]
  exact ⟨rfl, rfl⟩

/-- A change of the hash part under one text. -/
theorem unaffected_hash {s : Bytes} {w : Option Value} {key : Key}
    (hr : t.Represents H.hash h) (hr' : t'.Represents H.hash (Function.update h s w))
    (harr : t'.array = t.array) (hn : key.NonNegative) :
    Unaffected H t t' key ↔
      ((key.id H).text H = s → t.arrayValue (key.id H) ≠ .nil ∨ h s = w) := by
  have hval : t'.arrayValue (key.id H) = t.arrayValue (key.id H) := by
    simp only [Table.arrayValue, Table.slot, harr]
  rw [unaffected_iff hr hr' hn]
  unfold Table.content
  rw [hval]
  by_cases hs : (key.id H).text H = s
  · rw [hs, Function.update_self]
    by_cases hnil : t.arrayValue (key.id H) = .nil
    · simp only [hnil, ↓reduceIte, ne_eq, not_true_eq_false, decide_false, Bool.false_or,
        false_or, forall_const]
      constructor
      · rintro ⟨hv, hsome⟩
        cases hw : w with
        | none =>
          rw [hw] at hsome
          exact Option.isSome_eq_false_iff.mp hsome.symm |> Option.isNone_iff_eq_none.mp
        | some w' =>
          rw [hw] at hv hsome
          obtain ⟨v, hv'⟩ := Option.isSome_iff_exists.mp hsome.symm
          rw [hv'] at hv ⊢
          exact congrArg some hv.symm
      · intro hw
        rw [hw]
        exact ⟨rfl, rfl⟩
    · simp [hnil]
  · rw [Function.update_of_ne hs]
    simp [hs]

/-- A write or a deletion under one key leaves every other key as it was, but where the hash part
takes the other key for it: one is a number, the other the string that encodes it, and neither is
served by the array part. -/
theorem keys_separate (hg : H.numberText = Double.formatG17) (hr : o.table.Represents H.hash h)
    {key₁ key₂ : Key} (h₁ : key₁.Finite) (h₂ : key₂.Finite) (hne : key₁.id H ≠ key₂.id H) :
    (∀ v, ∃ o', H.setTable o key₁ v = some o' ∧
      (Unaffected H o.table o'.table key₂ ↔
        (Collide H (key₁.id H) (key₂.id H) →
          key₁.inArray o.table = true ∨ o.table.arrayValue (key₂.id H) ≠ .nil ∨
            tableGet H.hash o.table ((key₁.id H).text H) = some (some v)))) ∧
    ∃ o' found, H.deleteTable o key₁ = some (o', found) ∧
      (Unaffected H o.table o'.table key₂ ↔
        (Collide H (key₁.id H) (key₂.id H) →
          o.table.arrayValue (key₁.id H) ≠ .nil ∨ o.table.arrayValue (key₂.id H) ≠ .nil ∨
            tableGet H.hash o.table ((key₁.id H).text H) = some none)) := by
  have hn₁ := h₁.nonNegative
  have hn₂ := h₂.nonNegative
  have htext := text_eq_iff hg h₁ h₂ hne
  rw [tableGet_eq hr]
  constructor
  · intro v
    cases hin : key₁.inArray o.table with
    | true =>
      obtain ⟨t', i, ht', hr', -, -, -, hp, hslot⟩ := setTable_array hr hn₁ hin v
      refine ⟨_, ht', ?_⟩
      have hu := unaffected_array hr hr' hn₂ hp hslot hne
      simp [hu]
    | false =>
      obtain ⟨hset, -⟩ := setTable_hash (H := H) hn₁ hin v
      obtain ⟨t', ht', hr', -, harr, -⟩ := tableSet_spec hr ((key₁.id H).text H) v
      refine ⟨{ o with table := t' }, by rw [hset]; simp [Host.setHash, ht'], ?_⟩
      rw [unaffected_hash hr hr' harr hn₂, ← htext, eq_comm]
      simp
  · by_cases hnil : o.table.arrayValue (key₁.id H) = .nil
    · obtain ⟨t', ht', hr', harr, -⟩ := tableDelete_spec hr ((key₁.id H).text H)
      refine ⟨{ o with table := t' }, _, by
        rw [deleteTable_hash o hn₁ hnil]
        simp only [Host.deleteHash, ht', Option.bind_eq_bind, Option.bind_some]
        rfl, ?_⟩
      rw [unaffected_hash hr hr' harr hn₂, ← htext, eq_comm]
      simp [hnil]
    · obtain ⟨t', i, ht', hr', -, -, -, hp, hslot⟩ := deleteTable_array hr hn₁ hnil
      refine ⟨_, true, ht', ?_⟩
      have hu := unaffected_array hr hr' hn₂ hp hslot hne
      simp [hu, hnil]

end Run

namespace SampleTable

/-- The host with `%.17g` and the string "\x1Fn0.5" at one address. -/
def printfHost : Host :=
  { host with
    numberText := Double.formatG17
    chars := fun obj => if obj = 5 then [0x1F, 110, 48, 46, 53] else [UInt8.ofNat obj] }

def half : Double := 0x3FE0000000000000

/-- `t[0.5] = 1; t["\x1Fn0.5"] = 5` changes `t[0.5]`. -/
theorem string_writes_number :
    ((printfHost.execAll [.set (.number half) (.number one)]).bind fun s =>
      printfHost.observe s.1.table (.number half) 1) = some (.number one, true) ∧
    ((printfHost.execAll [.set (.number half) (.number one),
        .set (.string 5) (.number five)]).bind fun s =>
      printfHost.observe s.1.table (.number half) 1) = some (.number five, true) := by
  decide +kernel

/-- `t["a"] = 1` on a new table leaves `t[0.5]`. -/
theorem keys_separate_half :
    ∃ o', printfHost.setTable newTable (.string 97) (.number one) = some o' ∧
      Unaffected printfHost newTable.table o'.table (.number half) := by
  have hfinite : (Key.number half).Finite := ⟨by decide, .inr (by decide)⟩
  obtain ⟨o', ho', hu⟩ := (keys_separate (H := printfHost) (o := newTable) rfl initTable_represents
    (show (Key.string 97).Finite from trivial) hfinite (fun hk => nomatch hk)).1 (.number one)
  refine ⟨o', ho', hu.mpr ?_⟩
  rintro ⟨x, ⟨hx, -⟩ | ⟨-, hx⟩⟩
  · cases hx
  · cases hx

end SampleTable

end ToiLang
