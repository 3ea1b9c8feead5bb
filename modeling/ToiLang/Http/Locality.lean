import ToiLang.Http.Framing
import ToiLang.Incremental

namespace ToiLang.Http

/-! What `http.parse` answers for a request depends only on the bytes that the request consumes,
once its headers are closed. -/

variable {cap fuel fuel' cap' : Nat} {cursor decoded body line p rest : Bytes}

theorem skipTrailers_local (h : skipTrailers fuel cursor = some rest) :
    ∃ used, cursor = used ++ rest ∧ ∀ x fuel', (used ++ x).length < fuel' →
      skipTrailers fuel' (used ++ x) = some x := by
  induction fuel generalizing cursor with
  | zero => cases h
  | succ fuel ih =>
    rw [skipTrailers] at h
    cases hn : findCrlf cursor with
    | none => simp [hn] at h
    | some n =>
      obtain ⟨-, hcut⟩ := findCrlf_some hn
      have hnone := findCrlf_take hn
      have hlen : (cursor.take n).length = n := by
        rw [List.length_take]
        have := (findCrlf_some hn).1
        omega
      cases n with
      | zero =>
        rw [hn] at h
        have hrest : cursor.drop 2 = rest := Option.some.inj h
        refine ⟨[13, 10], ?_, fun x fuel' hfuel => ?_⟩
        · rw [List.take_zero, List.nil_append, hrest] at hcut
          exact hcut
        · obtain ⟨fuel', rfl⟩ := Nat.exists_eq_succ_of_ne_zero (Nat.ne_of_gt (Nat.lt_of_le_of_lt (Nat.zero_le _) hfuel))
          rfl
      | succ n =>
        rw [hn] at h
        obtain ⟨used, hused, hlocal⟩ := ih h
        refine ⟨cursor.take (n + 1) ++ 13 :: 10 :: used, ?_, fun x fuel' hfuel => ?_⟩
        · rw [hused] at hcut
          rw [List.append_assoc]
          exact hcut
        · obtain ⟨fuel', rfl⟩ := Nat.exists_eq_succ_of_ne_zero (Nat.ne_of_gt (Nat.lt_of_le_of_lt (Nat.zero_le _) hfuel))
          have hline := findCrlf_line hnone (used ++ x)
          have hdrop := drop_line (cursor.take (n + 1)) (used ++ x)
          rw [hlen] at hline hdrop
          have hshape : cursor.take (n + 1) ++ 13 :: 10 :: used ++ x =
              cursor.take (n + 1) ++ 13 :: 10 :: (used ++ x) := by simp
          rw [hshape] at hfuel ⊢
          simp only [List.length_append, List.length_cons] at hfuel
          have hstep : skipTrailers (fuel' + 1) (cursor.take (n + 1) ++ 13 :: 10 :: (used ++ x)) =
              skipTrailers fuel' (used ++ x) := by
            rw [skipTrailers, hline]
            exact congrArg _ hdrop
          rw [hstep]
          refine hlocal x fuel' ?_
          rw [List.length_append]
          omega

/-- A size line, and what is done with the rest. -/
theorem decodeChunks_step (hline : findCrlf line = none) :
    decodeChunks cap (fuel + 1) (line ++ 13 :: 10 :: p) decoded =
      if sizeToken line = [] then some .invalid
      else
        match parseChunkSize 0 (sizeToken line) with
        | none => none
        | some none => some .invalid
        | some (some size) =>
          if size = 0 then
            match skipTrailers (p.length + 1) p with
            | none => some .incomplete
            | some rest => some (.decoded decoded (cap - rest.length))
          else if 2 ^ 31 ≤ size + 2 then none
          else if p.length < size + 2 then some .incomplete
          else if cap < decoded.length + size then none
          else
            match p.drop size with
            | a :: b :: rest =>
              if a ≠ 13 ∨ b ≠ 10 then some .invalid
              else decodeChunks cap fuel rest (decoded ++ p.take size)
            | _ => none := by
  simp only [decodeChunks, findCrlf_line hline, List.take_left, drop_line] <;> rfl

/-- The body behind the headers is decoded from the bytes that it consumes. -/
theorem decodeChunks_local {k : Nat} (hcap : decoded.length + cursor.length ≤ cap)
    (h : decodeChunks cap fuel cursor decoded = some (.decoded body k)) :
    ∃ used rest, cursor = used ++ rest ∧ k + rest.length = cap ∧
      ∀ x cap' fuel', (used ++ x).length < fuel' → decoded.length + (used ++ x).length ≤ cap' →
        decodeChunks cap' fuel' (used ++ x) decoded = some (.decoded body (cap' - x.length)) := by
  induction fuel generalizing cursor decoded with
  | zero => cases h
  | succ fuel ih =>
    cases hn : findCrlf cursor with
    | none => simp [decodeChunks, hn] at h
    | some n =>
      obtain ⟨-, hcut⟩ := findCrlf_some hn
      have hnone := findCrlf_take hn
      generalize cursor.take n = line at hcut hnone
      generalize cursor.drop (n + 2) = p at hcut
      subst hcut
      rw [decodeChunks_step hnone] at h
      by_cases htoken : sizeToken line = []
      · rw [if_pos htoken] at h
        cases h
      rw [if_neg htoken] at h
      cases hsize : parseChunkSize 0 (sizeToken line) with
      | none =>
        rw [hsize] at h
        cases h
      | some size? =>
        rw [hsize] at h
        cases size? with
        | none => cases h
        | some size =>
          dsimp only at h
          split_ifs at h with hzero hbig hshort hroom
          · cases htrail : skipTrailers (p.length + 1) p with
            | none => simp [htrail] at h
            | some rest =>
              rw [htrail] at h
              obtain ⟨rfl, rfl⟩ := ChunkResult.decoded.inj (Option.some.inj h)
              obtain ⟨used, rfl, hlocal⟩ := skipTrailers_local htrail
              refine ⟨line ++ 13 :: 10 :: used, rest, by simp, ?_, fun x cap' fuel' hfuel hcap' => ?_⟩
              · simp only [List.length_append, List.length_cons] at hcap
                omega
              · obtain ⟨fuel', rfl⟩ := Nat.exists_eq_succ_of_ne_zero
                  (Nat.ne_of_gt (Nat.lt_of_le_of_lt (Nat.zero_le _) hfuel))
                have hshape : line ++ 13 :: 10 :: used ++ x = line ++ 13 :: 10 :: (used ++ x) := by simp
                rw [hshape, decodeChunks_step hnone]
                simp only [htoken, hsize, hzero, ↓reduceIte, hlocal x _ (Nat.lt_succ_self _)]
          · cases h
          · split at h
            next a b rest hab =>
              by_cases hcr : a ≠ 13 ∨ b ≠ 10
              · rw [if_pos hcr] at h
                cases h
              rw [if_neg hcr] at h
              obtain ⟨rfl, rfl⟩ : a = 13 ∧ b = 10 := by
                simpa [not_or] using hcr
              have hp : p = p.take size ++ 13 :: 10 :: rest := by
                rw [← hab, List.take_append_drop]
              have htake : (p.take size).length = size := by
                rw [List.length_take]
                omega
              generalize p.take size = data at hp htake h
              subst hp
              have hcap' : (decoded ++ data).length + rest.length ≤ cap := by
                simp only [List.length_append, List.length_cons] at hcap ⊢
                omega
              obtain ⟨used, rest', rfl, hk, hlocal⟩ := ih hcap' h
              refine ⟨line ++ 13 :: 10 :: (data ++ 13 :: 10 :: used), rest', by simp, hk,
                fun x cap' fuel' hfuel hroom' => ?_⟩
              obtain ⟨fuel', rfl⟩ := Nat.exists_eq_succ_of_ne_zero
                (Nat.ne_of_gt (Nat.lt_of_le_of_lt (Nat.zero_le _) hfuel))
              have hshape : line ++ 13 :: 10 :: (data ++ 13 :: 10 :: used) ++ x =
                  line ++ 13 :: 10 :: (data ++ 13 :: 10 :: (used ++ x)) := by simp
              rw [hshape] at hfuel hroom' ⊢
              simp only [List.length_append, List.length_cons] at hfuel hroom'
              have hlong : ¬(data ++ 13 :: 10 :: (used ++ x)).length < size + 2 := by
                simp only [List.length_append, List.length_cons]
                omega
              have hdrop : (data ++ 13 :: 10 :: (used ++ x)).drop size = 13 :: 10 :: (used ++ x) := by
                rw [← htake, List.drop_left]
              have htake' : (data ++ 13 :: 10 :: (used ++ x)).take size = data := by
                rw [← htake, List.take_left]
              have hroom'' : ¬cap' < decoded.length + size := by omega
              rw [decodeChunks_step hnone]
              simp only [htoken, hsize, hzero, hbig, hlong, hroom'', ↓reduceIte, hdrop, htake', ne_eq,
                not_true_eq_false, or_self]
              refine hlocal x cap' fuel' ?_ ?_
              · rw [List.length_append]
                omega
              · simp only [List.length_append]
                omega
            next => cases h

/-- What is invalid or undefined stays so, whatever follows. -/
theorem decodeChunks_stable {r : Option ChunkResult} (hr : r = none ∨ r = some .invalid)
    (hfuel : cursor.length < fuel) (hcap : decoded.length + cursor.length ≤ cap)
    (h : decodeChunks cap fuel cursor decoded = r) (c : Bytes) (hfuel' : (cursor ++ c).length < fuel')
    (hcap' : decoded.length + (cursor ++ c).length ≤ cap') :
    decodeChunks cap' fuel' (cursor ++ c) decoded = r := by
  induction fuel generalizing cursor decoded fuel' with
  | zero => omega
  | succ fuel ih =>
    obtain ⟨fuel', rfl⟩ := Nat.exists_eq_succ_of_ne_zero
      (Nat.ne_of_gt (Nat.lt_of_le_of_lt (Nat.zero_le _) hfuel'))
    cases hn : findCrlf cursor with
    | none =>
      rw [decodeChunks, hn] at h
      rcases hr with rfl | rfl
      · cases h
      · cases h
    | some n =>
      obtain ⟨-, hcut⟩ := findCrlf_some hn
      have hnone := findCrlf_take hn
      generalize cursor.take n = line at hcut hnone
      generalize cursor.drop (n + 2) = p at hcut
      subst hcut
      have hshape : line ++ 13 :: 10 :: p ++ c = line ++ 13 :: 10 :: (p ++ c) := by simp
      rw [hshape] at hfuel' hcap' ⊢
      simp only [List.length_append, List.length_cons] at hfuel hcap hfuel' hcap'
      rw [decodeChunks_step hnone] at h ⊢
      by_cases htoken : sizeToken line = []
      · rw [if_pos htoken] at h ⊢
        exact h
      rw [if_neg htoken] at h ⊢
      cases hsize : parseChunkSize 0 (sizeToken line) with
      | none =>
        rw [hsize] at h
        exact h
      | some size? =>
        rw [hsize] at h
        cases size? with
        | none => exact h
        | some size =>
          dsimp only at h ⊢
          split_ifs at h with hzero hbig hshort hroom
          · cases htrail : skipTrailers (p.length + 1) p with
            | none =>
              rw [htrail] at h
              rcases hr with rfl | rfl
              · cases h
              · cases h
            | some rest =>
              rw [htrail] at h
              rcases hr with rfl | rfl
              · cases h
              · cases h
          · rw [if_neg hzero, if_pos hbig]
            exact h
          · rcases hr with rfl | rfl
            · cases h
            · cases h
          · omega
          · have hlong : ¬(p ++ c).length < size + 2 := by
              rw [List.length_append]
              omega
            have hdrop : (p ++ c).drop size = p.drop size ++ c :=
              List.drop_append_of_le_length (by omega)
            have htake : (p ++ c).take size = p.take size :=
              List.take_append_of_le_length (by omega)
            have hrest : (p.drop size).length = p.length - size := List.length_drop
            rw [if_neg hzero, if_neg hbig, if_neg hlong, if_neg (by omega), hdrop, htake]
            cases hd : p.drop size with
            | nil =>
              rw [hd, List.length_nil] at hrest
              omega
            | cons a tail =>
              cases tail with
              | nil =>
                rw [hd, List.length_singleton] at hrest
                omega
              | cons b rest =>
                rw [hd] at h
                rw [hd, List.length_cons, List.length_cons] at hrest
                have htlen : (p.take size).length = size := by
                  rw [List.length_take]
                  omega
                dsimp only [List.cons_append] at h ⊢
                by_cases hcr : a ≠ 13 ∨ b ≠ 10
                · rw [if_pos hcr] at h ⊢
                  exact h
                rw [if_neg hcr] at h ⊢
                refine ih ?_ ?_ h ?_ ?_
                · omega
                · rw [List.length_append]
                  omega
                · rw [List.length_append]
                  omega
                · simp only [List.length_append]
                  omega

theorem parseBody_local {h : Head} {k : Nat} (hb : parseBody h p = some (.decoded body k)) :
    ∃ used rest, p = used ++ rest ∧ used.length = k ∧
      ∀ x, parseBody h (used ++ x) = some (.decoded body k) := by
  unfold parseBody at hb
  cases hc : h.chunked with
  | true =>
    rw [hc, if_pos rfl, decodeChunkedBody] at hb
    obtain ⟨used, rest, rfl, hk, hlocal⟩ := decodeChunks_local (by simp) hb
    rw [List.length_append] at hk
    have hused : used.length = k := by omega
    refine ⟨used, rest, rfl, hused, fun x => ?_⟩
    have hx := hlocal x (used ++ x).length ((used ++ x).length + 1) (Nat.lt_succ_self _) (by simp)
    have hlen : (used ++ x).length - x.length = k := by
      rw [List.length_append]
      omega
    rw [hlen] at hx
    rw [parseBody, if_pos hc]
    exact hx
  | false =>
    simp only [hc, Bool.false_eq_true, ↓reduceIte] at hb
    cases hn : h.contentLength with
    | none =>
      rw [hn] at hb
      obtain ⟨rfl, rfl⟩ := ChunkResult.decoded.inj (Option.some.inj hb)
      refine ⟨[], p, rfl, rfl, fun x => ?_⟩
      simp only [parseBody, hc, hn, Bool.false_eq_true, ↓reduceIte]
    | some n =>
      rw [hn] at hb
      dsimp only at hb
      by_cases hshort : p.length < n
      · rw [if_pos hshort] at hb
        cases hb
      · rw [if_neg hshort] at hb
        obtain ⟨rfl, rfl⟩ := ChunkResult.decoded.inj (Option.some.inj hb)
        have htake : (p.take n).length = n := by
          rw [List.length_take]
          omega
        refine ⟨p.take n, p.drop n, (List.take_append_drop n p).symm, htake, fun x => ?_⟩
        have hlong : ¬(p.take n ++ x).length < n := by
          rw [List.length_append]
          omega
        have hleft : (p.take n ++ x).take n = p.take n := by
          rw [List.take_append_of_le_length (by omega), List.take_take, Nat.min_self]
        simp only [parseBody, hc, hn, Bool.false_eq_true, ↓reduceIte, hlong, hleft]

theorem parseBody_stable {h : Head} {r : Option ChunkResult} (hr : r = none ∨ r = some .invalid)
    (hb : parseBody h p = r) (c : Bytes) : parseBody h (p ++ c) = r := by
  unfold parseBody at hb
  cases hc : h.chunked with
  | true =>
    rw [hc, if_pos rfl] at hb
    rw [parseBody, if_pos hc]
    exact decodeChunks_stable hr (Nat.lt_succ_self _) (by simp) hb c (Nat.lt_succ_self _) (by simp)
  | false =>
    simp only [hc, Bool.false_eq_true, ↓reduceIte] at hb
    cases hn : h.contentLength with
    | none =>
      rw [hn] at hb
      rcases hr with rfl | rfl
      · cases hb
      · cases hb
    | some n =>
      rw [hn] at hb
      dsimp only at hb
      by_cases hshort : p.length < n
      · rw [if_pos hshort] at hb
        rcases hr with rfl | rfl
        · cases hb
        · cases hb
      · rw [if_neg hshort] at hb
        rcases hr with rfl | rfl
        · cases hb
        · cases hb

theorem findCrlf_cons {c : UInt8} (hc : c ≠ 13) {s : Bytes} (h : findCrlf s = none) :
    findCrlf (c :: s) = none := by
  cases s with
  | nil => rfl
  | cons d s => rw [findCrlf, if_neg fun he => hc he.1, h, Option.map_none]

theorem findCrlf_append_none {s t : Bytes} {c : UInt8} (hs : findCrlf s = none) (hc : c ≠ 10)
    (ht : findCrlf (c :: t) = none) : findCrlf (s ++ c :: t) = none := by
  induction s with
  | nil => exact ht
  | cons a s ih =>
    cases s with
    | nil =>
      rw [List.cons_append, List.nil_append, findCrlf, if_neg fun he => hc he.2, ht, Option.map_none]
    | cons b s =>
      have hsplit : ¬(a = 13 ∧ b = 10) := by
        intro he
        rw [findCrlf, if_pos he] at hs
        cases hs
      rw [findCrlf, if_neg hsplit, Option.map_eq_none_iff] at hs
      have hrest := ih hs
      rw [List.cons_append, List.cons_append, findCrlf, if_neg hsplit, ← List.cons_append, hrest,
        Option.map_none]

/-- A header line, without the line break behind it. -/
def HeadLine (l : Bytes) : Prop := l ≠ [] ∧ findCrlf l = none

def joinLines (lines : List Bytes) : Bytes := lines.flatMap (· ++ [13, 10])

/-- One line of the headers. `none` rejects the request. -/
def Head.addLine (h : Head) (line : Bytes) : Option Head :=
  match strchr line 58 with
  | none => some h
  | some colon =>
    h.add ((line.take colon).map toLower) ((line.drop (colon + 1)).dropWhile isSpace)

def Head.addLines (h : Head) : List Bytes → Option Head
  | [] => some h
  | l :: ls => (h.addLine l).bind fun h => h.addLines ls

theorem joinLines_cons (l : Bytes) (ls : List Bytes) (q : Bytes) :
    joinLines (l :: ls) ++ q = l ++ 13 :: 10 :: (joinLines ls ++ q) := by
  simp [joinLines]

theorem joinLines_length (ls : List Bytes) : ls.length ≤ (joinLines ls).length := by
  induction ls with
  | nil => exact Nat.zero_le _
  | cons l ls ih =>
    have h := congrArg List.length (joinLines_cons l ls [])
    simp only [List.append_nil, List.length_append, List.length_cons] at h ⊢
    omega

theorem strchr_cons (x : UInt8) (xs : Bytes) (c : UInt8) :
    strchr (x :: xs) c =
      if x = 0 then none else if x = c then some 0 else (strchr xs c).map (· + 1) := by
  by_cases h0 : x = 0
  · rw [if_pos h0, strchr, List.takeWhile_cons_of_neg (by simpa using h0)]
    rfl
  · rw [if_neg h0, strchr, List.takeWhile_cons_of_pos (by simpa using h0), List.idxOf?_cons]
    simp only [beq_iff_eq]
    rfl

/-- A colon that the header loop finds behind the line is behind its line break. -/
theorem strchr_line (line rest : Bytes) :
    (strchr line 58 = none ∧
      ∀ colon, strchr (line ++ 13 :: 10 :: rest) 58 = some colon → line.length < colon) ∨
      ∃ colon, strchr line 58 = some colon ∧ strchr (line ++ 13 :: 10 :: rest) 58 = some colon ∧
        ¬line.length < colon := by
  induction line with
  | nil =>
    refine .inl ⟨rfl, fun colon h => ?_⟩
    rw [List.nil_append, strchr_cons, if_neg (by decide), if_neg (by decide)] at h
    obtain ⟨n, -, rfl⟩ := Option.map_eq_some_iff.mp h
    exact Nat.succ_pos n
  | cons x line ih =>
    rw [List.cons_append, strchr_cons, strchr_cons]
    by_cases h0 : x = 0
    · rw [if_pos h0, if_pos h0]
      exact .inl ⟨rfl, fun _ h => nomatch h⟩
    rw [if_neg h0, if_neg h0]
    by_cases hx : x = 58
    · rw [if_pos hx, if_pos hx]
      exact .inr ⟨0, rfl, rfl, Nat.not_lt_zero _⟩
    rw [if_neg hx, if_neg hx]
    rcases ih with ⟨hnone, hlong⟩ | ⟨colon, hcolon, hsame, hin⟩
    · refine .inl ⟨by rw [hnone]; rfl, fun colon h => ?_⟩
      obtain ⟨n, hn, rfl⟩ := Option.map_eq_some_iff.mp h
      exact Nat.succ_lt_succ (hlong n hn)
    · refine .inr ⟨colon + 1, by rw [hcolon]; rfl, by rw [hsame]; rfl, ?_⟩
      rw [List.length_cons]
      omega

theorem parseHeaders_headLine {l : Bytes} (hl : HeadLine l) (rest : Bytes) (h : Head) :
    parseHeaders (fuel + 1) (l ++ 13 :: 10 :: rest) h =
      match h.addLine l with
      | none => .rejected
      | some h => parseHeaders fuel rest h := by
  have hne : l ++ 13 :: 10 :: rest ≠ [] := by simp
  have hpos : l.length ≠ 0 := fun h0 => hl.1 (List.length_eq_zero_iff.mp h0)
  simp only [parseHeaders, hne, ↓reduceIte, findCrlf_line hl.2, hpos, drop_line, List.take_left]
  rcases strchr_line l rest with ⟨hnone, hlong⟩ | ⟨colon, hcolon, hsame, hin⟩
  · rw [Head.addLine, hnone]
    cases hc : strchr (l ++ 13 :: 10 :: rest) 58 with
    | none => rfl
    | some colon => exact if_pos (hlong colon hc)
  · rw [Head.addLine, hcolon, hsame]
    exact if_neg hin

theorem parseHeaders_joinLines {ls : List Bytes} (hls : ∀ l ∈ ls, HeadLine l) (q : Bytes) (h : Head)
    (hfuel : ls.length < fuel) :
    parseHeaders fuel (joinLines ls ++ q) h =
      match h.addLines ls with
      | none => .rejected
      | some h => parseHeaders (fuel - ls.length) q h := by
  induction ls generalizing h fuel with
  | nil => rfl
  | cons l ls ih =>
    obtain ⟨fuel, rfl⟩ := Nat.exists_eq_succ_of_ne_zero
      (Nat.ne_of_gt (Nat.lt_of_le_of_lt (Nat.zero_le _) hfuel))
    rw [joinLines_cons, parseHeaders_headLine (hls l List.mem_cons_self), Head.addLines]
    cases hl : h.addLine l with
    | none => rfl
    | some h1 =>
      rw [List.length_cons] at hfuel
      have hrest := ih (fun l hl => hls l (List.mem_cons_of_mem _ hl)) h1 (Nat.lt_of_succ_lt_succ hfuel)
      dsimp only [Option.bind_some]
      rw [hrest, List.length_cons, Nat.succ_sub_succ]

/-- Behind the lines: nothing, a line that is not complete, or the empty line. -/
def Stops (tail : Bytes) : Prop := ∀ n, findCrlf tail = some n → n = 0

theorem exists_lines (p : Bytes) :
    ∃ ls tail, p = joinLines ls ++ tail ∧ (∀ l ∈ ls, HeadLine l) ∧ Stops tail := by
  induction hk : p.length using Nat.strong_induction_on generalizing p with
  | _ k ih =>
    cases hn : findCrlf p with
    | none => exact ⟨[], p, rfl, by simp, fun n h => by rw [hn] at h; cases h⟩
    | some n =>
      cases n with
      | zero => exact ⟨[], p, rfl, by simp, fun n h => by rw [hn] at h; exact (Option.some.inj h).symm⟩
      | succ n =>
        obtain ⟨hlen, hcut⟩ := findCrlf_some hn
        have hdrop : (p.drop (n + 1 + 2)).length < k := by
          rw [List.length_drop]
          omega
        obtain ⟨ls, tail, hrest, hls, htail⟩ := ih _ hdrop _ rfl
        have htake : (p.take (n + 1)).length = n + 1 := by
          rw [List.length_take]
          omega
        refine ⟨p.take (n + 1) :: ls, tail, ?_, ?_, htail⟩
        · rw [joinLines_cons, ← hrest]
          exact hcut
        · intro l hl
          rcases List.mem_cons.mp hl with rfl | hl
          · refine ⟨fun h => ?_, findCrlf_take hn⟩
            rw [h] at htake
            cases htake
          · exact hls l hl

theorem lines_unique {ls ls' : List Bytes} {tail tail' : Bytes} (hls : ∀ l ∈ ls, HeadLine l)
    (hls' : ∀ l ∈ ls', HeadLine l) (ht : Stops tail) (ht' : Stops tail')
    (h : joinLines ls ++ tail = joinLines ls' ++ tail') : ls = ls' ∧ tail = tail' := by
  have hno : ∀ (l : Bytes) (ls : List Bytes) (t t' : Bytes), HeadLine l → Stops t' →
      joinLines (l :: ls) ++ t ≠ t' := by
    intro l ls t t' hl ht' he
    rw [joinLines_cons] at he
    have hn := findCrlf_line hl.2 (joinLines ls ++ t)
    rw [he] at hn
    exact hl.1 (List.length_eq_zero_iff.mp (ht' _ hn))
  induction ls generalizing ls' with
  | nil =>
    cases ls' with
    | nil => exact ⟨rfl, h⟩
    | cons l' ls' => exact absurd h.symm (hno l' ls' tail' tail (hls' l' List.mem_cons_self) ht)
  | cons l ls ih =>
    cases ls' with
    | nil => exact absurd h (hno l ls tail tail' (hls l List.mem_cons_self) ht')
    | cons l' ls' =>
      rw [joinLines_cons, joinLines_cons] at h
      have hn := findCrlf_line (hls l List.mem_cons_self).2 (joinLines ls ++ tail)
      have hn' := findCrlf_line (hls' l' List.mem_cons_self).2 (joinLines ls' ++ tail')
      rw [h, hn'] at hn
      have hlen := Option.some.inj hn
      obtain ⟨rfl, hrest⟩ := List.append_inj h hlen.symm
      obtain ⟨rfl, htail⟩ := ih (fun l hl => hls l (List.mem_cons_of_mem _ hl))
        (fun l hl => hls' l (List.mem_cons_of_mem _ hl)) (by simpa using hrest)
      exact ⟨rfl, htail⟩

end ToiLang.Http
