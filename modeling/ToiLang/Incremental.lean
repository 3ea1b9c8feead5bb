import Mathlib.Data.List.Basic

namespace ToiLang.Incremental

/-! Reading a stream that arrives in pieces: what is there so far is parsed again after each piece,
until it is enough. -/

variable {α β π : Type}

/-- The buffers that a reader can see: after each of the pieces. -/
def cuts (bytes : π → List α) (buffer : List α) : List π → List (List α)
  | [] => [buffer]
  | p :: ps => buffer :: cuts bytes (buffer ++ bytes p) ps

/-- Pieces are read until the parser has an answer: the answer, the buffer and the pieces that are
not read. -/
def readUntil (parse : List α → Option β) (bytes : π → List α) (buffer : List α) :
    List π → Option (β × List α × List π)
  | [] => (parse buffer).map fun r => (r, buffer, [])
  | p :: ps =>
    match parse buffer with
    | some r => some (r, buffer, p :: ps)
    | none => readUntil parse bytes (buffer ++ bytes p) ps

/-- What follows does not change an answer. -/
def Stable (parse : List α → Option β) : Prop :=
  ∀ b c r, parse b = some r → parse (b ++ c) = some r

variable {parse spec : List α → Option β} {bytes : π → List α} {buffer b : List α} {ps rest : List π}
  {r : β}

theorem mem_cuts_self : buffer ∈ cuts bytes buffer ps := by
  cases ps with
  | nil => exact List.mem_singleton_self _
  | cons p ps => exact List.mem_cons_self

theorem prefix_of_mem_cuts (h : b ∈ cuts bytes buffer ps) : buffer <+: b := by
  induction ps generalizing buffer with
  | nil =>
    rw [cuts, List.mem_singleton] at h
    exact h ▸ List.prefix_rfl
  | cons p ps ih =>
    rcases List.mem_cons.mp h with rfl | h
    · exact List.prefix_rfl
    · exact (List.prefix_append _ _).trans (ih h)

theorem cut_prefix (h : b ∈ cuts bytes buffer ps) : b <+: buffer ++ ps.flatMap bytes := by
  induction ps generalizing buffer with
  | nil =>
    rw [cuts, List.mem_singleton] at h
    rw [h]
    exact List.prefix_append _ _
  | cons p ps ih =>
    rcases List.mem_cons.mp h with rfl | h
    · exact List.prefix_append _ _
    · have hp := ih h
      rwa [List.append_assoc] at hp

theorem whole_mem_cuts : buffer ++ ps.flatMap bytes ∈ cuts bytes buffer ps := by
  induction ps generalizing buffer with
  | nil => simp [cuts]
  | cons p ps ih =>
    have h := @ih (buffer ++ bytes p)
    rw [List.append_assoc] at h
    exact List.mem_cons_of_mem _ h

/-- What is taken off the buffer is missing in all that follow. -/
theorem cuts_drop {n : Nat} (hn : n ≤ buffer.length) :
    cuts bytes (buffer.drop n) ps = (cuts bytes buffer ps).map (List.drop n) := by
  induction ps generalizing buffer with
  | nil => rfl
  | cons p ps ih =>
    have hlen : n ≤ (buffer ++ bytes p).length := by
      rw [List.length_append]
      omega
    rw [cuts, cuts, List.map_cons, ← ih hlen, List.drop_append_of_le_length hn]

/-- Where the reader stops: the buffers before had no answer. -/
theorem readUntil_some (h : readUntil parse bytes buffer ps = some (r, b, rest)) :
    parse b = some r ∧ b ++ rest.flatMap bytes = buffer ++ ps.flatMap bytes ∧
      ∃ before, cuts bytes buffer ps = before ++ cuts bytes b rest ∧
        ∀ c ∈ before, parse c = none ∧ c <+: b := by
  induction ps generalizing buffer with
  | nil =>
    obtain ⟨r', hr, he⟩ := Option.map_eq_some_iff.mp h
    obtain ⟨rfl, rfl, rfl⟩ := he
    exact ⟨hr, rfl, [], rfl, by simp⟩
  | cons p ps ih =>
    rw [readUntil] at h
    cases hb : parse buffer with
    | some r' =>
      rw [hb] at h
      obtain ⟨rfl, rfl, rfl⟩ := Option.some.inj h
      exact ⟨hb, rfl, [], rfl, by simp⟩
    | none =>
      rw [hb] at h
      obtain ⟨hr, hstream, before, hcuts, hbefore⟩ := ih h
      have hb' : buffer ++ bytes p <+: b := by
        have hmem : b ∈ cuts bytes (buffer ++ bytes p) ps := by
          rw [hcuts]
          exact List.mem_append_right _ mem_cuts_self
        exact prefix_of_mem_cuts hmem
      refine ⟨hr, ?_, buffer :: before, ?_, ?_⟩
      · rw [hstream, List.flatMap_cons, List.append_assoc]
      · rw [cuts, hcuts, List.cons_append]
      · intro c hc
        rcases List.mem_cons.mp hc with rfl | hc
        · exact ⟨hb, (List.prefix_append _ _).trans hb'⟩
        · exact hbefore c hc

theorem readUntil_none (h : readUntil parse bytes buffer ps = none) :
    ∀ c ∈ cuts bytes buffer ps, parse c = none := by
  induction ps generalizing buffer with
  | nil =>
    intro c hc
    rw [cuts, List.mem_singleton] at hc
    rw [hc]
    exact Option.map_eq_none_iff.mp h
  | cons p ps ih =>
    rw [readUntil] at h
    intro c hc
    cases hb : parse buffer with
    | some r => simp [hb] at h
    | none =>
      rw [hb] at h
      rcases List.mem_cons.mp hc with rfl | hc
      · exact hb
      · exact ih h c hc

/-- A reader whose parser agrees with a stable one on the buffers it sees answers as that one does
of the whole stream. -/
theorem readUntil_eq (hs : Stable spec) (hagree : ∀ c ∈ cuts bytes buffer ps, parse c = spec c) :
    (readUntil parse bytes buffer ps).map Prod.fst = spec (buffer ++ ps.flatMap bytes) := by
  cases h : readUntil parse bytes buffer ps with
  | none =>
    have hnone := readUntil_none h _ whole_mem_cuts
    rw [hagree _ whole_mem_cuts] at hnone
    rw [hnone]
    rfl
  | some x =>
    obtain ⟨r, b, rest⟩ := x
    obtain ⟨hr, hstream, before, hcuts, -⟩ := readUntil_some h
    have hb : b ∈ cuts bytes buffer ps := by
      rw [hcuts]
      exact List.mem_append_right _ mem_cuts_self
    rw [hagree b hb] at hr
    rw [← hstream, hs b _ r hr]
    rfl

end ToiLang.Incremental
