import ToiLang.Strings.Buffers
import ToiLang.Strings.Search

namespace ToiLang.Strings

open Http (indexOf)

/-! `string.split` and `string.join`. -/

/-- `strstr(s, sep)`: both texts end at their first zero byte, and an empty one is found at once. -/
def strstr (s sep : Bytes) : Option Nat :=
  if sep.takeWhile (· ≠ 0) = [] then some 0
  else Http.strstr s (sep.takeWhile (· ≠ 0))

/-- The forward loop, with `splits_remaining`; none where `s` leaves the string. -/
def splitForward (sep : Bytes) : Nat → Bytes → Option (List Bytes)
  | 0, s => some [s]
  | splits + 1, s =>
    match strstr s sep with
    | none => some [s]
    | some n =>
      if n + sep.length ≤ s.length then
        (splitForward sep splits (s.drop (n + sep.length))).map (s.take n :: ·)
      else none

/-- The search for the separator from the places below `candidate` down. -/
def lastFrom (sep s : Bytes) : Nat → Option Nat
  | 0 => none
  | candidate + 1 =>
    if sep.isPrefixOf (s.drop candidate) then some candidate else lastFrom sep s candidate

/-- The last place of the separator in `s`. -/
def findLast (sep s : Bytes) : Option Nat :=
  if s.length < sep.length then none else lastFrom sep s (s.length - sep.length + 1)

/-- The backward loop, with the number of segments that may still be cut off. -/
def splitBackward (sep : Bytes) : Nat → Bytes → List Bytes
  | 0, s => [s]
  | limit + 1, s =>
    match findLast sep s with
    | none => [s]
    | some found => splitBackward sep limit (s.take found) ++ [s.drop (found + sep.length)]

/-- The parts of `string.split`, with the `int` of a third argument. -/
def splitParts (s sep : Bytes) (maxSplits : Option Int32) : Option (List Bytes) :=
  if sep = [] then some (s.map fun c => [c])
  else
    match maxSplits with
    | none => splitForward sep (2 ^ 31 - 1) s
    | some maxSplits =>
      if maxSplits < 0 then
        let limit := -maxSplits
        if limit ≤ 0 then some [s] else some (splitBackward sep limit.toInt.toNat s)
      else splitForward sep maxSplits.toInt.toNat s

/-- The table that the parts are set in, one behind the other. -/
def partsTable (parts : List Bytes) : Table :=
  (parts.foldl (fun (acc : Table × Nat) part =>
    ((tableSetArray acc.1 (acc.2 : Int) (.string part)).getD acc.1, acc.2 + 1)) (initTable, 1)).1

def stringSplit (s sep : Bytes) (maxSplits : Option Int32) : Option Table :=
  (splitParts s sep maxSplits).map partsTable

/-! ## What is claimed of them -/

/-- `a` is what stands in front of the first `sep` of `s`, and `b` what stands behind. -/
def CutFirst (sep s a b : Bytes) : Prop :=
  s = a ++ (sep ++ b) ∧ ∀ x y, s = x ++ (sep ++ y) → a.length ≤ x.length

/-- The same for the last `sep`. -/
def CutLast (sep s a b : Bytes) : Prop :=
  s = a ++ (sep ++ b) ∧ ∀ x y, s = x ++ (sep ++ y) → x.length ≤ a.length

/-- The parts between the first places of `sep`, at most so many. -/
inductive LeftCuts (sep : Bytes) : Nat → Bytes → List Bytes → Prop
  | done {s : Bytes} : LeftCuts sep 0 s [s]
  | missing {k : Nat} {s : Bytes} (h : ¬sep <:+: s) : LeftCuts sep k s [s]
  | cut {k : Nat} {s a b : Bytes} {parts : List Bytes} (h : CutFirst sep s a b)
      (hrest : LeftCuts sep k b parts) : LeftCuts sep (k + 1) s (a :: parts)

/-- The parts between the last places of `sep`, found from the right. -/
inductive RightCuts (sep : Bytes) : Nat → Bytes → List Bytes → Prop
  | done {s : Bytes} : RightCuts sep 0 s [s]
  | missing {k : Nat} {s : Bytes} (h : ¬sep <:+: s) : RightCuts sep k s [s]
  | cut {k : Nat} {s a b : Bytes} {parts : List Bytes} (h : CutLast sep s a b)
      (hrest : RightCuts sep k a parts) : RightCuts sep (k + 1) s (parts ++ [b])

/-- The parts that a limit asks for. -/
def IsSplit (s sep : Bytes) (limit : Option Int32) (parts : List Bytes) : Prop :=
  match limit with
  | none => (∃ k, LeftCuts sep k s parts) ∧ ∀ part ∈ parts, ¬sep <:+: part
  | some limit =>
    if 0 ≤ limit.toInt then LeftCuts sep limit.toInt.toNat s parts
    else RightCuts sep (-limit.toInt).toNat s parts

/-- `split` ends, makes the parts that are asked for, and `join` puts them together again. -/
def SplitsRight (C : Conversions) (hash : Bytes → UInt32) (s sep : Bytes) (limit : Option Int32) : Prop :=
  ∃ t parts, stringSplit s sep limit = some t ∧ t.Lists (parts.map Value.string) ∧
    IsSplit s sep limit parts ∧
      ∃ b, stringJoin C hash sep t = .ok b ∧ b.Exact ∧ b.text = s

/-- At each of the first cuts, `strstr` finds the separator where it first stands. -/
def Seen (sep : Bytes) : Nat → Bytes → Prop
  | 0, _ => True
  | k + 1, s => strstr s sep = indexOf sep s ∧
      ∀ n, indexOf sep s = some n → Seen sep k (s.drop (n + sep.length))

/-- Where the split is right. -/
def SplitClear (s sep : Bytes) : Option Int32 → Prop
  | none => Seen sep (2 ^ 31 - 1) s
  | some limit => if limit < 0 then limit = Int32.minValue → ¬sep <:+: s else Seen sep limit.toInt.toNat s

section Cuts

variable {sep s a b : Bytes} {k n : Nat} {parts : List Bytes}

/-- A place of the separator is a way to write the text around it. -/
theorem prefix_drop_iff (hn : n ≤ s.length) :
    sep <+: s.drop n ↔ ∃ x y, s = x ++ (sep ++ y) ∧ x.length = n := by
  constructor
  · intro h
    exact ⟨s.take n, _, split_around h, List.length_take_of_le hn⟩
  · rintro ⟨x, y, rfl, rfl⟩
    rw [List.drop_left]
    exact ⟨y, rfl⟩

theorem place_le (hsep : sep ≠ []) (h : sep <+: s.drop n) : n ≤ s.length := by
  have hlen := h.length_le
  have hpos := List.length_pos_iff.mpr hsep
  rw [List.length_drop] at hlen
  omega

theorem cutFirst_of_indexOf (hsep : sep ≠ []) (h : indexOf sep s = some n) :
    CutFirst sep s (s.take n) (s.drop (n + sep.length)) := by
  refine ⟨indexOf_split h, fun x y hs => ?_⟩
  have hle := indexOf_le hsep h
  rw [List.length_take_of_le (by omega)]
  by_contra hlt
  refine (indexOf_found h).2 x.length (by omega) ?_
  rw [hs, List.drop_left]
  exact ⟨y, rfl⟩

theorem CutFirst.indexOf_eq (hsep : sep ≠ []) (h : CutFirst sep s a b) :
    indexOf sep s = some a.length ∧ s.take a.length = a ∧ s.drop (a.length + sep.length) = b := by
  obtain ⟨rfl, hfirst⟩ := h
  refine ⟨Http.indexOf_eq hsep ?_ fun m hm hat => ?_, List.take_left, ?_⟩
  · rw [List.drop_left]
    exact ⟨b, rfl⟩
  · obtain ⟨x, y, hs, hx⟩ := (prefix_drop_iff (place_le hsep hat)).mp hat
    have hle := hfirst x y hs
    omega
  · rw [← List.drop_drop, List.drop_left, List.drop_left]

/-- The parts between the first places, computed. -/
def leftParts (sep : Bytes) : Nat → Bytes → List Bytes
  | 0, s => [s]
  | k + 1, s =>
    match indexOf sep s with
    | none => [s]
    | some n => s.take n :: leftParts sep k (s.drop (n + sep.length))

theorem leftParts_missing (hsep : sep ≠ []) (h : ¬sep <:+: s) : leftParts sep k s = [s] := by
  cases k with
  | zero => rfl
  | succ k => rw [leftParts, (indexOf_eq_none hsep).mpr h]

theorem leftCuts_iff (hsep : sep ≠ []) : LeftCuts sep k s parts ↔ parts = leftParts sep k s := by
  constructor
  · intro h
    induction h with
    | done => rfl
    | missing h => rw [leftParts_missing hsep h]
    | cut h _ ih =>
      obtain ⟨hfound, htake, hdrop⟩ := h.indexOf_eq hsep
      rw [leftParts, hfound]
      dsimp only
      rw [htake, hdrop, ih]
  · rintro rfl
    induction k generalizing s with
    | zero => exact .done
    | succ k ih =>
      rw [leftParts]
      cases hfound : indexOf sep s with
      | none => exact .missing ((indexOf_eq_none hsep).mp hfound)
      | some n => exact .cut (cutFirst_of_indexOf hsep hfound) ih

theorem lastFrom_some {c : Nat} (h : lastFrom sep s c = some n) :
    sep <+: s.drop n ∧ ∀ m, n < m → m < c → ¬sep <+: s.drop m := by
  induction c with
  | zero => cases h
  | succ c ih =>
    rw [lastFrom] at h
    split_ifs at h with hc
    · obtain rfl := Option.some.inj h
      exact ⟨List.isPrefixOf_iff_prefix.mp hc, fun m hm hlt => absurd hm (by omega)⟩
    · obtain ⟨hat, hlast⟩ := ih h
      refine ⟨hat, fun m hm hlt => ?_⟩
      rcases Nat.lt_or_eq_of_le (Nat.le_of_lt_succ hlt) with hlt | rfl
      · exact hlast m hm hlt
      · exact fun hp => hc (List.isPrefixOf_iff_prefix.mpr hp)

theorem lastFrom_none {c : Nat} (h : lastFrom sep s c = none) {m : Nat} (hm : m < c) : ¬sep <+: s.drop m := by
  induction c with
  | zero => cases hm
  | succ c ih =>
    rw [lastFrom] at h
    split_ifs at h with hc
    rcases Nat.lt_or_eq_of_le (Nat.le_of_lt_succ hm) with hlt | rfl
    · exact ih h hlt
    · exact fun hp => hc (List.isPrefixOf_iff_prefix.mpr hp)

/-- No place of the separator is too near to the end for it. -/
theorem place_room (hsep : sep ≠ []) (h : sep <+: s.drop n) : n < s.length - sep.length + 1 := by
  have hlen := h.length_le
  have hpos := List.length_pos_iff.mpr hsep
  rw [List.length_drop] at hlen
  omega

theorem findLast_none (hsep : sep ≠ []) : findLast sep s = none ↔ ¬sep <:+: s := by
  unfold findLast
  constructor
  · rintro h ⟨x, y, hs⟩
    rw [List.append_assoc] at hs
    have hat : sep <+: s.drop x.length := by
      rw [← hs, List.drop_left]
      exact ⟨y, rfl⟩
    split_ifs at h with hlen
    · rw [← hs, List.length_append, List.length_append] at hlen
      omega
    · exact lastFrom_none h (place_room hsep hat) hat
  · intro h
    split_ifs with hlen
    · rfl
    · cases hl : lastFrom sep s (s.length - sep.length + 1) with
      | none => rfl
      | some n =>
        refine absurd ⟨s.take n, s.drop (n + sep.length), ?_⟩ h
        rw [List.append_assoc]
        exact (split_around (lastFrom_some hl).1).symm

theorem cutLast_of_findLast (hsep : sep ≠ []) (h : findLast sep s = some n) :
    CutLast sep s (s.take n) (s.drop (n + sep.length)) := by
  unfold findLast at h
  split_ifs at h with hlen
  obtain ⟨hat, hlast⟩ := lastFrom_some h
  refine ⟨split_around hat, fun x y hs => ?_⟩
  rw [List.length_take_of_le (place_le hsep hat)]
  by_contra hlt
  have hx : sep <+: s.drop x.length := by
    rw [hs, List.drop_left]
    exact ⟨y, rfl⟩
  exact hlast x.length (by omega) (place_room hsep hx) hx

theorem CutLast.findLast_eq (hsep : sep ≠ []) (h : CutLast sep s a b) :
    findLast sep s = some a.length ∧ s.take a.length = a ∧ s.drop (a.length + sep.length) = b := by
  obtain ⟨hs, hlast⟩ := h
  have hparts : s.take a.length = a ∧ s.drop (a.length + sep.length) = b := by
    rw [hs]
    exact ⟨List.take_left, by rw [← List.drop_drop, List.drop_left, List.drop_left]⟩
  refine ⟨?_, hparts⟩
  cases hf : findLast sep s with
  | none => exact absurd ⟨a, b, by rw [List.append_assoc, ← hs]⟩ ((findLast_none hsep).mp hf)
  | some n =>
    obtain ⟨hn, hge⟩ := cutLast_of_findLast hsep hf
    have h1 := hlast _ _ hn
    have h2 := hge _ _ hs
    have hle : n ≤ s.length := by
      unfold findLast at hf
      split_ifs at hf
      exact place_le hsep (lastFrom_some hf).1
    rw [List.length_take_of_le hle] at h1 h2
    exact congrArg some (by omega)

theorem splitBackward_missing (hsep : sep ≠ []) (h : ¬sep <:+: s) : splitBackward sep k s = [s] := by
  cases k with
  | zero => rfl
  | succ k => rw [splitBackward, (findLast_none hsep).mpr h]

/-- The backward loop makes the parts between the last places. -/
theorem rightCuts_iff (hsep : sep ≠ []) : RightCuts sep k s parts ↔ parts = splitBackward sep k s := by
  constructor
  · intro h
    induction h with
    | done => rfl
    | missing h => rw [splitBackward_missing hsep h]
    | cut h _ ih =>
      obtain ⟨hfound, htake, hdrop⟩ := h.findLast_eq hsep
      rw [splitBackward, hfound]
      dsimp only
      rw [htake, hdrop, ih]
  · rintro rfl
    induction k generalizing s with
    | zero => exact .done
    | succ k ih =>
      rw [splitBackward]
      cases hfound : findLast sep s with
      | none => exact .missing ((findLast_none hsep).mp hfound)
      | some n => exact .cut (cutLast_of_findLast hsep hfound) ih

theorem splitBackward_ne_nil : splitBackward sep k s ≠ [] := by
  cases k with
  | zero => simp [splitBackward]
  | succ k =>
    rw [splitBackward]
    split <;> simp

/-- Where the separator stands, a cut makes more than one part. -/
theorem splitBackward_single (hsep : sep ≠ []) : splitBackward sep (k + 1) s = [s] ↔ ¬sep <:+: s := by
  rw [← findLast_none hsep, splitBackward]
  cases findLast sep s with
  | none => simp
  | some n =>
    have hne : splitBackward sep k (s.take n) ≠ [] := splitBackward_ne_nil
    have hpos := List.length_pos_iff.mpr hne
    refine iff_of_false (fun h => ?_) (by simp)
    have hlen := congrArg List.length h
    rw [List.length_append, List.length_singleton, List.length_singleton] at hlen
    omega

/-! ## The forward loop -/

theorem leftParts_ne_nil : leftParts sep k s ≠ [] := by
  cases k with
  | zero => simp [leftParts]
  | succ k =>
    rw [leftParts]
    split <;> simp

theorem splitForward_ne_nil (h : splitForward sep k s = some parts) : parts ≠ [] := by
  cases k with
  | zero =>
    obtain rfl := Option.some.inj h
    simp
  | succ k =>
    rw [splitForward] at h
    split at h
    · obtain rfl := Option.some.inj h
      simp
    · split_ifs at h
      obtain ⟨rest, -, rfl⟩ := Option.map_eq_some_iff.mp h
      simp

/-- A first part with others behind it is not the whole list. -/
theorem cons_ne_singleton {x y : Bytes} {rest : List Bytes} (h : rest ≠ []) : x :: rest ≠ [y] := fun he =>
  h (List.cons.inj he).2

theorem take_inj {m : Nat} (hm : m ≤ s.length) (hn : n ≤ s.length) (h : s.take m = s.take n) : m = n := by
  have hlen := congrArg List.length h
  rwa [List.length_take_of_le hm, List.length_take_of_le hn] at hlen

/-- The forward loop makes the parts between the first places just where `strstr` sees them. -/
theorem splitForward_iff (hsep : sep ≠ []) : splitForward sep k s = some (leftParts sep k s) ↔ Seen sep k s := by
  induction k generalizing s with
  | zero => exact iff_of_true rfl trivial
  | succ k ih =>
    rw [splitForward, leftParts, Seen]
    cases hfound : indexOf sep s with
    | none =>
      cases hseen : strstr s sep with
      | none => simp
      | some m =>
        refine iff_of_false (fun h => ?_) (fun h => nomatch h.1)
        dsimp only at h
        split_ifs at h
        obtain ⟨rest, hrest, he⟩ := Option.map_eq_some_iff.mp h
        exact cons_ne_singleton (splitForward_ne_nil hrest) he
    | some n =>
      have hle := indexOf_le hsep hfound
      cases hseen : strstr s sep with
      | none =>
        refine iff_of_false (fun h => ?_) (fun h => nomatch h.1)
        exact cons_ne_singleton leftParts_ne_nil (Option.some.inj h).symm
      | some m =>
        dsimp only
        by_cases hmn : m = n
        · subst hmn
          rw [if_pos hle]
          constructor
          · intro h
            obtain ⟨rest, hrest, he⟩ := Option.map_eq_some_iff.mp h
            refine ⟨rfl, fun n hn => ?_⟩
            obtain rfl := Option.some.inj hn
            refine ih.mp ?_
            rw [hrest, (List.cons.inj he).2]
          · intro h
            rw [ih.mpr (h.2 m rfl)]
            rfl
        · refine iff_of_false (fun h => ?_) (fun h => hmn (Option.some.inj h.1))
          split_ifs at h with hm
          obtain ⟨rest, -, he⟩ := Option.map_eq_some_iff.mp h
          exact hmn (take_inj (by omega) (by omega) (List.cons.inj he).1)

/-- No part of a split that ran out of places holds the separator. -/
theorem leftParts_free (hsep : sep ≠ []) (hk : s.length < k) :
    ∀ part ∈ leftParts sep k s, ¬sep <:+: part := by
  induction k generalizing s with
  | zero => cases hk
  | succ k ih =>
    rw [leftParts]
    cases hfound : indexOf sep s with
    | none =>
      intro part hpart
      obtain rfl := List.mem_singleton.mp hpart
      exact (indexOf_eq_none hsep).mp hfound
    | some n =>
      have hle := indexOf_le hsep hfound
      have hpos := List.length_pos_iff.mpr hsep
      intro part hpart
      rcases List.mem_cons.mp hpart with rfl | hpart
      · rintro ⟨x, y, hin⟩
        have hlen := congrArg List.length hin
        rw [List.length_append, List.length_append, List.length_take_of_le (by omega)] at hlen
        have hcut := (cutFirst_of_indexOf hsep hfound).2 x (y ++ s.drop n) (by
          rw [← List.append_assoc sep, ← List.append_assoc x, ← List.append_assoc x, hin, List.take_append_drop])
        rw [List.length_take_of_le (by omega)] at hcut
        omega
      · refine ih ?_ part hpart
        rw [List.length_drop]
        omega

/-- Where no part holds the separator, more cuts make no difference. -/
theorem leftParts_more (hsep : sep ≠ []) (hfree : ∀ part ∈ leftParts sep k s, ¬sep <:+: part) (j : Nat) :
    leftParts sep (k + j) s = leftParts sep k s := by
  induction k generalizing s with
  | zero => exact leftParts_missing hsep (hfree s (List.mem_singleton.mpr rfl))
  | succ k ih =>
    rw [Nat.add_right_comm]
    rw [leftParts] at hfree ⊢
    rw [leftParts]
    cases hfound : indexOf sep s with
    | none => rfl
    | some n =>
      rw [hfound] at hfree
      exact congrArg (s.take n :: ·) (ih fun part hpart => hfree part (List.mem_cons_of_mem _ hpart))

/-- The parts of an unlimited split are those of a split with more cuts than there are characters. -/
theorem unlimited_iff (hsep : sep ≠ []) (hk : s.length < k) :
    ((∃ j, LeftCuts sep j s parts) ∧ ∀ part ∈ parts, ¬sep <:+: part) ↔ parts = leftParts sep k s := by
  constructor
  · rintro ⟨⟨j, hj⟩, hfree⟩
    obtain rfl := (leftCuts_iff hsep).mp hj
    have h1 := leftParts_more hsep hfree k
    have h2 := leftParts_more hsep (leftParts_free hsep hk) j
    rw [Nat.add_comm] at h2
    rw [← h1, h2]
  · rintro rfl
    exact ⟨⟨k, (leftCuts_iff hsep).mpr rfl⟩, leftParts_free hsep hk⟩

end Cuts

section Joins

variable {sep s : Bytes} {k : Nat} {parts : List Bytes}

theorem LeftCuts.joined (h : LeftCuts sep k s parts) : sep.intercalate parts = s ∧ parts ≠ [] := by
  induction h with
  | done => exact ⟨List.intercalate_singleton, by simp⟩
  | missing => exact ⟨List.intercalate_singleton, by simp⟩
  | cut h _ ih =>
    refine ⟨?_, by simp⟩
    rw [List.intercalate_cons_of_ne_nil ih.2, ih.1, List.append_assoc]
    exact h.1.symm

theorem intercalate_concat (hparts : parts ≠ []) (b : Bytes) :
    sep.intercalate (parts ++ [b]) = sep.intercalate parts ++ (sep ++ b) := by
  induction parts with
  | nil => exact absurd rfl hparts
  | cons part parts ih =>
    cases parts with
    | nil => simp
    | cons p parts =>
      have hrest := ih (by simp)
      rw [List.cons_append, List.intercalate_cons_of_ne_nil (by simp), hrest, List.intercalate_cons_cons]
      simp

theorem RightCuts.joined (h : RightCuts sep k s parts) : sep.intercalate parts = s ∧ parts ≠ [] := by
  induction h with
  | done => exact ⟨List.intercalate_singleton, by simp⟩
  | missing => exact ⟨List.intercalate_singleton, by simp⟩
  | cut h _ ih =>
    refine ⟨?_, by simp⟩
    rw [intercalate_concat ih.2, ih.1]
    exact h.1.symm

theorem IsSplit.joined {limit : Option Int32} (h : IsSplit s sep limit parts) : sep.intercalate parts = s := by
  unfold IsSplit at h
  split at h
  · obtain ⟨⟨k, hk⟩, -⟩ := h
    exact hk.joined.1
  · split_ifs at h
    · exact h.joined.1
    · exact h.joined.1

/-- The values that the loops of `join` meet in a table that lists values. -/
theorem sliceElement_lists (hash : Bytes → UInt32) {t : Table} {values : List Value} (h : t.Lists values)
    (hv : ∀ v ∈ values, v ≠ .nil) (i : Nat) : sliceElement hash t ((i + 1 : Nat) : Int) = values[i]? := by
  have h1 : ((i + 1 : Nat) : Int) ≥ 1 := by omega
  rw [sliceElement, if_pos h1, tableGetArray_succ, h.slot, List.getD_eq_getElem?_getD]
  cases hi : values[i]? with
  | none =>
    rw [Option.getD_none, if_neg (by simp)]
    have hget : tableGet hash t (numberKeyString (Double.ofInt64 ((i + 1 : Nat) : Int))) = some none := by
      rw [tableGet, if_pos h.count]
    dsimp only
    rw [hget]
  | some v =>
    rw [Option.getD_some, if_pos (hv v (List.mem_of_getElem? hi))]

theorem elementsFrom_eq {get : Int → Option Value} {values : List Value} {fuel i : Nat}
    (hget : ∀ j, get ((j + 1 : Nat) : Int) = values[j]?) (hfuel : values.length ≤ fuel + i) :
    elementsFrom get fuel ((i + 1 : Nat) : Int) = values.drop i := by
  induction fuel generalizing i with
  | zero =>
    rw [List.drop_eq_nil_of_le (by omega)]
    rfl
  | succ fuel ih =>
    rw [elementsFrom, hget i]
    cases hi : values[i]? with
    | none =>
      rw [List.drop_eq_nil_of_le (List.getElem?_eq_none_iff.mp hi)]
    | some v =>
      obtain ⟨hlt, rfl⟩ := List.getElem?_eq_some_iff.mp hi
      rw [List.drop_eq_getElem_cons hlt]
      exact congrArg (values[i] :: ·) (ih (by omega))

theorem length_le_capacity {t : Table} {values : List Value} (h : t.Lists values)
    (hv : ∀ v ∈ values, v ≠ .nil) : values.length ≤ t.arrayCapacity := by
  by_contra hlt
  have hpos : 0 < values.length := by omega
  have hlast := h.value (y := values.length - 1) (by omega) hv
  exact hlast (slot_behind (by omega))

theorem joinElements_lists (hash : Bytes → UInt32) {t : Table} {values : List Value} (h : t.Lists values)
    (hv : ∀ v ∈ values, v ≠ .nil) : joinElements hash t = values := by
  have hlen := length_le_capacity h hv
  exact elementsFrom_eq (i := 0) (sliceElement_lists hash h hv) (by omega)

theorem string_ne_nil : ∀ v ∈ parts.map Value.string, v ≠ .nil := by
  intro v hv
  obtain ⟨part, -, rfl⟩ := List.mem_map.mp hv
  exact Value.noConfusion

theorem mapM_string (C : Conversions) (parts : List Bytes) :
    (parts.map Value.string).mapM (joinText C) = some parts := by
  induction parts with
  | nil => rfl
  | cons part parts ih =>
    rw [List.map_cons, List.mapM_cons, ih]
    rfl

/-- `join` of a table of strings. -/
theorem stringJoin_lists (C : Conversions) (hash : Bytes → UInt32) {t : Table}
    (h : t.Lists (parts.map Value.string)) :
    stringJoin C hash sep t = .ok (joinBuffer joinWrite sep parts) := by
  rw [stringJoin, joinElements_lists hash h string_ne_nil, mapM_string]

theorem partsTable_lists (parts : List Bytes) : (partsTable parts).Lists (parts.map Value.string) := by
  have hfold : ∀ (rest : List Bytes) (done : List Bytes) (t : Table), t.Lists (done.map Value.string) →
      t.Bounded → (rest.foldl (fun (acc : Table × Nat) part =>
        ((tableSetArray acc.1 (acc.2 : Int) (.string part)).getD acc.1, acc.2 + 1)) (t, done.length + 1)).1.Lists
          ((done ++ rest).map Value.string) := by
    intro rest
    induction rest with
    | nil =>
      intro done t h _
      rwa [List.append_nil]
    | cons part rest ih =>
      intro done t h hb
      obtain ⟨u, hu, hlists, hbu⟩ := h.setArray hb string_ne_nil (v := .string part) Value.noConfusion
      rw [List.length_map] at hu
      have hdone : done ++ part :: rest = (done ++ [part]) ++ rest := by simp
      have hnext := ih (done ++ [part]) u (by simpa using hlists) hbu
      rw [List.foldl_cons, hdone]
      dsimp only
      rw [hu, Option.getD_some]
      rwa [List.length_append, List.length_singleton] at hnext
  have hbounded : initTable.Bounded := fun i hi => absurd rfl hi
  exact hfold parts [] initTable initTable_lists hbounded

/-- A table lists one list of strings only. -/
theorem lists_unique {t : Table} {parts' : List Bytes} (h : t.Lists (parts.map Value.string))
    (h' : t.Lists (parts'.map Value.string)) : parts = parts' := by
  have heq := (joinElements_lists (fun _ => 0) h string_ne_nil).symm.trans
    (joinElements_lists (fun _ => 0) h' string_ne_nil)
  exact List.map_injective_iff.mpr (fun a b hab => Value.string.inj hab) heq

end Joins

section Limits

variable {sep s : Bytes} {limit : Int32} {parts : List Bytes}

/-- The smallest `int` is its own negative. -/
theorem toInt_neg_cases (limit : Int32) :
    (limit ≠ Int32.minValue ∧ (-limit).toInt = -limit.toInt) ∨ limit = Int32.minValue := by
  by_cases h : limit = Int32.minValue
  · exact .inr h
  · have hne : limit.toInt ≠ -2 ^ 31 := fun he =>
      h (Int32.toInt_inj.mp (he.trans Int32.toInt_minValue.symm))
    have hle := limit.le_toInt
    have hlt := limit.toInt_lt
    refine .inl ⟨h, ?_⟩
    rw [Int32.toInt_neg]
    exact Int.bmod_eq_of_le (by omega) (by omega)

/-- `split` makes the parts that are asked for just where it is clear. -/
theorem splitParts_iff (hsep : sep ≠ []) (hs : s.length ≤ Struct.maxLength) (limit : Option Int32) :
    (∃ parts, splitParts s sep limit = some parts ∧ IsSplit s sep limit parts) ↔ SplitClear s sep limit := by
  have hforward : ∀ k, (∃ parts, splitForward sep k s = some parts ∧ parts = leftParts sep k s) ↔ Seen sep k s :=
    fun k => by
      rw [← splitForward_iff hsep]
      exact ⟨fun ⟨parts, hp, he⟩ => he ▸ hp, fun hp => ⟨_, hp, rfl⟩⟩
  unfold splitParts
  rw [if_neg hsep]
  cases limit with
  | none =>
    have hk : s.length < 2 ^ 31 - 1 := by
      unfold Struct.maxLength at hs
      omega
    simp only [IsSplit, unlimited_iff hsep hk]
    exact hforward _
  | some limit =>
    dsimp only [IsSplit, SplitClear]
    by_cases hneg : limit < 0
    · have hint : limit.toInt < 0 := by
        rw [Int32.lt_iff_toInt_lt, Int32.toInt_zero] at hneg
        exact hneg
      have hnn : ¬0 ≤ limit.toInt := by omega
      rw [if_pos hneg, if_pos hneg]
      simp only [if_neg hnn, rightCuts_iff hsep]
      rcases toInt_neg_cases limit with ⟨hmin, hto⟩ | rfl
      · have hpos : ¬-limit ≤ 0 := by
          rw [Int32.le_iff_toInt_le, Int32.toInt_zero, hto]
          omega
        rw [if_neg hpos, hto]
        exact iff_of_true ⟨_, rfl, rfl⟩ fun h => absurd h hmin
      · have hself : -Int32.minValue ≤ 0 := by decide
        have hnat : (-Int32.minValue.toInt).toNat = (2 ^ 31 - 1) + 1 := by decide
        rw [if_pos hself, hnat, ← splitBackward_single (k := 2 ^ 31 - 1) hsep]
        constructor
        · rintro ⟨parts, hp, he⟩ -
          rw [← he, Option.some.inj hp]
        · intro h
          exact ⟨[s], rfl, (h rfl).symm⟩
    · have hint : 0 ≤ limit.toInt := by
        rw [Int32.lt_iff_toInt_lt, Int32.toInt_zero] at hneg
        omega
      rw [if_neg hneg, if_neg hneg]
      simp only [if_pos hint, leftCuts_iff hsep]
      exact hforward _

end Limits

/-- `split` and `join` do what is asked for just where `strstr` sees the separator at each of the cuts,
and for the smallest limit where there is nothing to cut. -/
theorem splitsRight_iff (C : Conversions) (hash : Bytes → UInt32) {s sep : Bytes} (limit : Option Int32)
    (hsep : sep ≠ []) (hs : s.length ≤ Struct.maxLength) :
    SplitsRight C hash s sep limit ↔ SplitClear s sep limit := by
  rw [← splitParts_iff hsep hs]
  constructor
  · rintro ⟨t, parts, hsplit, hlists, hparts, -⟩
    obtain ⟨parts', hp, rfl⟩ := Option.map_eq_some_iff.mp hsplit
    obtain rfl := lists_unique (partsTable_lists parts') hlists
    exact ⟨parts', hp, hparts⟩
  · rintro ⟨parts, hp, hparts⟩
    have hlists := partsTable_lists parts
    have hjoined := hparts.joined
    obtain ⟨htext, hexact⟩ := joinBuffer_exact (joinWrite_eq sep parts)
    refine ⟨partsTable parts, parts, by rw [stringSplit, hp]; rfl, hlists, hparts, _,
      stringJoin_lists C hash hlists, hexact.mpr ?_, ?_⟩
    · rwa [hjoined]
    · rw [htext, hjoined]

/-- Texts without a zero byte are seen as they are. -/
theorem seen_of_no_zero {sep s : Bytes} (hsep : (0 : UInt8) ∉ sep) (hne : sep ≠ []) (hs : (0 : UInt8) ∉ s)
    (k : Nat) : Seen sep k s := by
  have htake : ∀ x : Bytes, (0 : UInt8) ∉ x → x.takeWhile (· ≠ 0) = x := by
    intro x hx
    refine List.takeWhile_eq_self_iff.mpr fun c hc => ?_
    have hc0 : c ≠ 0 := fun he => hx (he ▸ hc)
    simpa using hc0
  induction k generalizing s with
  | zero => trivial
  | succ k ih =>
    refine ⟨?_, fun n _ => ih fun h0 => hs (List.mem_of_mem_drop h0)⟩
    rw [strstr, htake sep hsep, if_neg hne, Http.strstr, htake s hs]

/-- `split` of `"a,b"` at the comma. -/
theorem splitsRight_comma : SplitsRight ⟨fun _ => 0, fun _ => 0, fun _ => 0⟩ (fun _ => 0) (ascii "a,b")
    (ascii ",") none :=
  (splitsRight_iff _ _ none (by decide) (by decide)).mpr
    (seen_of_no_zero (by decide) (by decide) (by decide) _)

/-- A comma behind a zero byte is not found. -/
theorem splitsRight_false : ¬∃ C hash, SplitsRight C hash [0, 44] [44] none := by
  rintro ⟨C, hash, t, parts, hsplit, hlists, hparts, -⟩
  obtain ⟨parts', hp, rfl⟩ := Option.map_eq_some_iff.mp hsplit
  obtain rfl := lists_unique (partsTable_lists parts') hlists
  have hone : splitParts [0, 44] [44] none = some [[0, 44]] := by decide
  rw [hone] at hp
  obtain rfl := Option.some.inj hp
  exact hparts.2 [0, 44] (List.mem_singleton.mpr rfl) ⟨[0], [], rfl⟩

end ToiLang.Strings
