import ToiLang.Ctype

namespace ToiLang.Http

/-- What `decode_chunked_body` returns: 1 with the body and the bytes consumed, 0 or -1. -/
inductive ChunkResult
  | decoded (body : Bytes) (consumed : Nat)
  | incomplete
  | invalid
  deriving DecidableEq, Repr

/-- The size in front of a chunk: the line up to a semicolon, without white space around it. -/
def sizeToken (line : Bytes) : Bytes := trimSpace (line.takeWhile (· ≠ 59))

/-- The digits of a chunk size, added to the `int` before them. The guard is before the shift; a
shift to 2^31 or more is undefined (`none`). `some none` is a digit or a size that is rejected. -/
def parseChunkSize (chunkSize : Nat) : Bytes → Option (Option Nat)
  | [] => some (some chunkSize)
  | c :: cs =>
    match hexDigit c with
    | none => some none
    | some digit =>
      if 0x0FFFFFFF < chunkSize then some none
      else if 2 ^ 31 ≤ chunkSize * 16 then none
      else parseChunkSize (chunkSize * 16 + digit) cs

/-- The lines behind the last chunk, up to an empty one: what is behind it. -/
def skipTrailers : Nat → Bytes → Option Bytes
  | 0, _ => none
  | fuel + 1, cursor =>
    match findCrlf cursor with
    | none => none
    | some 0 => some (cursor.drop 2)
    | some n => skipTrailers fuel (cursor.drop (n + 2))

/-- The loop over the chunks of a body of `cap` bytes, with what is left of it and what is decoded.
`none` is undefined: an `int` overflow, a read behind the end or a write behind `cap` bytes. -/
def decodeChunks (cap : Nat) : Nat → Bytes → Bytes → Option ChunkResult
  | 0, _, _ => none
  | fuel + 1, cursor, decoded =>
    match findCrlf cursor with
    | none => some .incomplete
    | some n =>
      let token := sizeToken (cursor.take n)
      let cursor := cursor.drop (n + 2)
      if token = [] then some .invalid
      else
        match parseChunkSize 0 token with
        | none => none
        | some none => some .invalid
        | some (some size) =>
          if size = 0 then
            match skipTrailers (cursor.length + 1) cursor with
            | none => some .incomplete
            | some rest => some (.decoded decoded (cap - rest.length))
          else if 2 ^ 31 ≤ size + 2 then none
          else if cursor.length < size + 2 then some .incomplete
          else if cap < decoded.length + size then none
          else
            match cursor.drop size with
            | a :: b :: rest =>
              if a ≠ 13 ∨ b ≠ 10 then some .invalid
              else decodeChunks cap fuel rest (decoded ++ cursor.take size)
            | _ => none

def decodeChunkedBody (body : Bytes) : Option ChunkResult :=
  decodeChunks body.length (body.length + 1) body []

/-- The value of hexadecimal digits behind those of a value. -/
def hexFrom (v : Nat) : Bytes → Nat
  | [] => v
  | c :: cs => hexFrom (v * 16 + (hexDigit c).getD 0) cs

def hexValue (s : Bytes) : Nat := hexFrom 0 s

def AllHex (s : Bytes) : Prop := ∀ c ∈ s, (hexDigit c).isSome

instance (s : Bytes) : Decidable (AllHex s) :=
  inferInstanceAs (Decidable (∀ c ∈ s, (hexDigit c).isSome = true))

/-- A size that the decoder's `int` does not hold: after eight digits it is 2^31 or more, or there
is no room for the line break behind the chunk. -/
def HugeSize (token : Bytes) : Prop :=
  (∃ k ≤ token.length, AllHex (token.take k) ∧ 2 ^ 31 ≤ hexValue (token.take k) ∧
    hexValue (token.take k) < 2 ^ 32) ∨
  AllHex token ∧ 2 ^ 31 ≤ hexValue token + 2 ∧ hexValue token < 2 ^ 31

/-- Where the lines with the sizes start: at the start, and behind each chunk that is complete. -/
inductive ChunkAt : Bytes → Bytes → Prop
  | start (body : Bytes) : ChunkAt body body
  | next {body line data cursor : Bytes} : findCrlf line = none → sizeToken line ≠ [] →
    AllHex (sizeToken line) → 0 < data.length → hexValue (sizeToken line) = data.length →
    ChunkAt body cursor →
    ChunkAt (line ++ 13 :: 10 :: (data ++ 13 :: 10 :: body)) cursor

theorem le_hexFrom (v : Nat) (s : Bytes) : v ≤ hexFrom v s := by
  induction s generalizing v with
  | nil => exact Nat.le_refl v
  | cons c cs ih =>
    have h := ih (v * 16 + (hexDigit c).getD 0)
    simp only [hexFrom]
    omega

theorem allHex_cons {c : UInt8} {cs : Bytes} :
    AllHex (c :: cs) ↔ (∃ d, hexDigit c = some d) ∧ AllHex cs := by
  simp [AllHex, Option.isSome_iff_exists]

/-- Digits whose value an `int` holds. -/
theorem parseChunkSize_fits {v : Nat} {s : Bytes} (hs : AllHex s) (hv : hexFrom v s < 2 ^ 31) :
    parseChunkSize v s = some (some (hexFrom v s)) := by
  induction s generalizing v with
  | nil => rfl
  | cons c cs ih =>
    obtain ⟨⟨d, hd⟩, hcs⟩ := allHex_cons.mp hs
    simp only [hexFrom, hd, Option.getD_some] at hv ⊢
    have hle := le_hexFrom (v * 16 + d) cs
    simp only [parseChunkSize, hd]
    rw [if_neg (by omega), if_neg (by omega)]
    exact ih hcs hv

theorem parseChunkSize_some {v m : Nat} {s : Bytes} (h : parseChunkSize v s = some (some m)) :
    AllHex s ∧ m = hexFrom v s := by
  induction s generalizing v with
  | nil =>
    obtain rfl : v = m := by simpa [parseChunkSize] using h
    exact ⟨by simp [AllHex], rfl⟩
  | cons c cs ih =>
    simp only [parseChunkSize] at h
    cases hd : hexDigit c with
    | none => simp [hd] at h
    | some d =>
      simp only [hd] at h
      split_ifs at h
      · cases h
      · obtain ⟨hcs, rfl⟩ := ih h
        exact ⟨allHex_cons.mpr ⟨⟨d, hd⟩, hcs⟩, by simp [hexFrom, hd]⟩

theorem parseChunkSize_lt {v m : Nat} {s : Bytes} (hv : v < 2 ^ 31)
    (h : parseChunkSize v s = some (some m)) : m < 2 ^ 31 := by
  induction s generalizing v with
  | nil =>
    obtain rfl : v = m := by simpa [parseChunkSize] using h
    exact hv
  | cons c cs ih =>
    simp only [parseChunkSize] at h
    cases hd : hexDigit c with
    | none => simp [hd] at h
    | some d =>
      have hlt := hexDigit_lt hd
      simp only [hd] at h
      split_ifs at h
      · cases h
      · exact ih (by omega) h

/-- The shift overflows exactly where some of the first digits have a value between 2^31 and
2^32. -/
theorem parseChunkSize_none {v : Nat} {s : Bytes} (hv : v < 2 ^ 31) :
    parseChunkSize v s = none ↔ ∃ k ≤ s.length, AllHex (s.take k) ∧
      2 ^ 31 ≤ hexFrom v (s.take k) ∧ hexFrom v (s.take k) < 2 ^ 32 := by
  induction s generalizing v with
  | nil =>
    refine iff_of_false (by simp [parseChunkSize]) ?_
    rintro ⟨k, -, -, hlow, -⟩
    simp only [List.take_nil, hexFrom] at hlow
    omega
  | cons c cs ih =>
    have hsplit : (∃ k ≤ (c :: cs).length, AllHex ((c :: cs).take k) ∧
        2 ^ 31 ≤ hexFrom v ((c :: cs).take k) ∧ hexFrom v ((c :: cs).take k) < 2 ^ 32) ↔
        ∃ d, hexDigit c = some d ∧ ∃ k ≤ cs.length, AllHex (cs.take k) ∧
          2 ^ 31 ≤ hexFrom (v * 16 + d) (cs.take k) ∧ hexFrom (v * 16 + d) (cs.take k) < 2 ^ 32 := by
      constructor
      · rintro ⟨k, hk, hhex, hlow, hhigh⟩
        cases k with
        | zero =>
          simp only [List.take_zero, hexFrom] at hlow
          omega
        | succ k =>
          rw [List.take_succ_cons] at hhex hlow hhigh
          obtain ⟨⟨d, hd⟩, hcs⟩ := allHex_cons.mp hhex
          simp only [hexFrom, hd, Option.getD_some] at hlow hhigh
          exact ⟨d, hd, k, by simpa using hk, hcs, hlow, hhigh⟩
      · rintro ⟨d, hd, k, hk, hcs, hlow, hhigh⟩
        refine ⟨k + 1, by simpa using hk, ?_, ?_, ?_⟩
        · exact allHex_cons.mpr ⟨⟨d, hd⟩, hcs⟩
        · simpa [hexFrom, hd] using hlow
        · simpa [hexFrom, hd] using hhigh
    rw [hsplit]
    simp only [parseChunkSize]
    cases hd : hexDigit c with
    | none => simp
    | some d =>
      have hlt := hexDigit_lt hd
      simp only [Option.some.injEq, exists_eq_left']
      split_ifs with hguard hshift
      · refine iff_of_false (by simp) ?_
        rintro ⟨k, -, -, -, hhigh⟩
        have hle := le_hexFrom (v * 16 + d) (cs.take k)
        omega
      · refine iff_of_true rfl ⟨0, Nat.zero_le _, by simp [AllHex], ?_, ?_⟩
        · simp only [List.take_zero, hexFrom]
          omega
        · simp only [List.take_zero, hexFrom]
          omega
      · exact ih (by omega)

theorem chunkAt_of_none {cursor c : Bytes} (h : findCrlf cursor = none) :
    ChunkAt cursor c ↔ c = cursor := by
  constructor
  · intro hc
    cases hc with
    | start => rfl
    | next hl =>
      rw [findCrlf_line hl] at h
      cases h
  · rintro rfl
    exact .start _

/-- Where the sizes start: at the line and, if its chunk is complete, where they start behind it. -/
theorem chunkAt_of_some {cursor c : Bytes} {n : Nat} (h : findCrlf cursor = some n) :
    ChunkAt cursor c ↔ c = cursor ∨ ∃ data body, cursor.drop (n + 2) = data ++ 13 :: 10 :: body ∧
      sizeToken (cursor.take n) ≠ [] ∧ AllHex (sizeToken (cursor.take n)) ∧ 0 < data.length ∧
      hexValue (sizeToken (cursor.take n)) = data.length ∧ ChunkAt body c := by
  constructor
  · intro hc
    cases hc with
    | start => exact .inl rfl
    | @next body line data _ hl htoken hhex hpos hval hbody =>
      have hn : n = line.length := by
        rw [findCrlf_line hl] at h
        exact (Option.some.inj h).symm
      subst hn
      have htake : (line ++ 13 :: 10 :: (data ++ 13 :: 10 :: body)).take line.length = line :=
        List.take_left
      have hdrop : (line ++ 13 :: 10 :: (data ++ 13 :: 10 :: body)).drop (line.length + 2) =
          data ++ 13 :: 10 :: body := by
        rw [← List.drop_drop, List.drop_left]
        rfl
      rw [htake, hdrop]
      exact .inr ⟨data, body, rfl, htoken, hhex, hpos, hval, hbody⟩
  · rintro (rfl | ⟨data, body, hdrop, htoken, hhex, hpos, hval, hbody⟩)
    · exact .start _
    · rw [(findCrlf_some h).2, hdrop]
      exact .next (findCrlf_take h) htoken hhex hpos hval hbody

/-- No size in the text is one that the decoder's `int` does not hold. -/
def SizesFit (body : Bytes) : Prop :=
  ∀ cursor n, ChunkAt body cursor → findCrlf cursor = some n → ¬HugeSize (sizeToken (cursor.take n))

theorem sizesFit_of_none {cursor : Bytes} (h : findCrlf cursor = none) : SizesFit cursor := by
  intro c n hc hn
  rw [(chunkAt_of_none h).mp hc, h] at hn
  cases hn

theorem not_sizesFit {cursor : Bytes} {n : Nat} (h : findCrlf cursor = some n)
    (hh : HugeSize (sizeToken (cursor.take n))) : ¬SizesFit cursor :=
  fun hfit => hfit cursor n (.start cursor) h hh

/-- A size that fits, with no complete chunk behind it. -/
theorem sizesFit_of_last {cursor : Bytes} {n : Nat} (h : findCrlf cursor = some n)
    (hh : ¬HugeSize (sizeToken (cursor.take n)))
    (hlast : ∀ data body, cursor.drop (n + 2) = data ++ 13 :: 10 :: body →
      sizeToken (cursor.take n) ≠ [] → AllHex (sizeToken (cursor.take n)) → 0 < data.length →
      hexValue (sizeToken (cursor.take n)) ≠ data.length) : SizesFit cursor := by
  intro c m hc hm
  rcases (chunkAt_of_some h).mp hc with rfl | ⟨data, body, hdrop, htoken, hhex, hpos, hval, -⟩
  · obtain rfl := Option.some.inj (h.symm.trans hm)
    exact hh
  · exact absurd hval (hlast data body hdrop htoken hhex hpos)

theorem sizesFit_of_next {cursor body : Bytes} {n size : Nat} (h : findCrlf cursor = some n)
    (hh : ¬HugeSize (sizeToken (cursor.take n))) (htoken : sizeToken (cursor.take n) ≠ [])
    (hhex : AllHex (sizeToken (cursor.take n))) (hpos : 0 < size)
    (hval : hexValue (sizeToken (cursor.take n)) = size) (hlen : size ≤ (cursor.drop (n + 2)).length)
    (hdrop : (cursor.drop (n + 2)).drop size = 13 :: 10 :: body) :
    SizesFit cursor ↔ SizesFit body := by
  have hcut : cursor.drop (n + 2) = (cursor.drop (n + 2)).take size ++ 13 :: 10 :: body := by
    rw [← hdrop, List.take_append_drop]
  have htake : ((cursor.drop (n + 2)).take size).length = size := by
    rw [List.length_take, Nat.min_eq_left hlen]
  constructor
  · intro hfit c m hc hm
    refine hfit c m ((chunkAt_of_some h).mpr (.inr ⟨_, body, hcut, htoken, hhex, ?_, ?_, hc⟩)) hm
    · rwa [htake]
    · rwa [htake]
  · intro hfit c m hc hm
    rcases (chunkAt_of_some h).mp hc with rfl | ⟨data, body', hdrop', -, -, -, hval', hbody⟩
    · obtain rfl := Option.some.inj (h.symm.trans hm)
      exact hh
    · rw [hdrop', hval.symm.trans hval', List.drop_left] at hdrop
      have hbody' : body' = body := by simpa using hdrop
      exact hfit c m (hbody' ▸ hbody) hm

theorem not_hugeSize_of_fits {token : Bytes} {m : Nat} (h : parseChunkSize 0 token = some (some m))
    (hm : m + 2 < 2 ^ 31) : ¬HugeSize token := by
  obtain ⟨hhex, rfl⟩ := parseChunkSize_some h
  rintro (hk | ⟨-, hbig, -⟩)
  · rw [(parseChunkSize_none (by omega)).mpr hk] at h
    cases h
  · rw [hexValue] at hbig
    omega

/-- The decoding of what is left is defined exactly where the sizes fit. -/
theorem decodeChunks_defined {cap fuel : Nat} {cursor decoded : Bytes}
    (hfuel : cursor.length < fuel) (hcap : decoded.length + cursor.length ≤ cap)
    (hlen : cursor.length < 2 ^ 31) :
    decodeChunks cap fuel cursor decoded ≠ none ↔ SizesFit cursor := by
  induction fuel generalizing cursor decoded with
  | zero => omega
  | succ fuel ih =>
    cases hline : findCrlf cursor with
    | none =>
      simp only [decodeChunks, hline]
      exact iff_of_true (by simp) (sizesFit_of_none hline)
    | some n =>
      have hcut := (findCrlf_some hline).1
      have hdroplen : (cursor.drop (n + 2)).length = cursor.length - (n + 2) := List.length_drop
      simp only [decodeChunks, hline]
      split_ifs with htoken
      · refine iff_of_true (by simp) (sizesFit_of_last hline ?_ fun _ _ _ hne => absurd htoken hne)
        rw [htoken]
        rintro (⟨k, -, -, hlow, -⟩ | ⟨-, hbig, -⟩)
        · simp [hexValue, hexFrom] at hlow
        · simp [hexValue, hexFrom] at hbig
      · cases hparse : parseChunkSize 0 (sizeToken (cursor.take n)) with
        | none =>
          refine iff_of_false (by simp) (not_sizesFit hline (.inl ?_))
          exact (parseChunkSize_none (by omega)).mp hparse
        | some size? =>
          cases size? with
          | none =>
            have hfits : ∀ v, AllHex (sizeToken (cursor.take n)) →
                hexValue (sizeToken (cursor.take n)) = v → v < 2 ^ 31 → False := by
              intro v hhex hval hv
              rw [parseChunkSize_fits hhex (by rw [← hexValue, hval]; exact hv)] at hparse
              cases hparse
            refine iff_of_true (by simp) (sizesFit_of_last hline ?_ fun data body hdrop _ hhex _ hval => ?_)
            · rintro (hk | ⟨hhex, -, hsmall⟩)
              · rw [(parseChunkSize_none (by omega)).mpr hk] at hparse
                cases hparse
              · exact hfits _ hhex rfl hsmall
            · have hlength := congrArg List.length hdrop
              rw [hdroplen, List.length_append] at hlength
              exact hfits _ hhex hval (by omega)
          | some size =>
            obtain ⟨hhex, hval⟩ := parseChunkSize_some hparse
            have hval : hexValue (sizeToken (cursor.take n)) = size := hval.symm
            dsimp only
            split_ifs with hzero hbig hshort hroom
            · have hok := not_hugeSize_of_fits hparse (by omega)
              refine iff_of_true ?_ (sizesFit_of_last hline hok fun data body _ _ _ hpos hd => ?_)
              · cases skipTrailers ((cursor.drop (n + 2)).length + 1) (cursor.drop (n + 2)) with
                | none => simp
                | some rest => simp
              · omega
            · refine iff_of_false (by simp) (not_sizesFit hline (.inr ⟨hhex, ?_, ?_⟩))
              · rwa [hval]
              · rw [hval]
                exact parseChunkSize_lt (by omega) hparse
            · have hok := not_hugeSize_of_fits hparse (by omega)
              refine iff_of_true (by simp) (sizesFit_of_last hline hok fun data body hdrop _ _ _ hd => ?_)
              have hlength := congrArg List.length hdrop
              simp only [List.length_append, List.length_cons] at hlength
              omega
            · omega
            · have hok := not_hugeSize_of_fits hparse (by omega)
              have hrest : ((cursor.drop (n + 2)).drop size).length =
                  (cursor.drop (n + 2)).length - size := List.length_drop
              split
              next a b rest hab =>
                rw [hab, List.length_cons, List.length_cons] at hrest
                split_ifs with hcr
                · refine iff_of_true (by simp)
                    (sizesFit_of_last hline hok fun data body hdrop _ _ _ hd => ?_)
                  rw [hdrop, hval.symm.trans hd, List.drop_left] at hab
                  have hcr' : a = 13 ∧ b = 10 := by simp at hab; exact ⟨hab.1.symm, hab.2.1.symm⟩
                  simp [hcr'] at hcr
                · obtain ⟨rfl, rfl⟩ : a = 13 ∧ b = 10 := by
                    simpa [not_or] using hcr
                  rw [sizesFit_of_next hline hok htoken hhex (Nat.pos_of_ne_zero hzero) hval
                    (by omega) hab]
                  refine ih (by omega) ?_ (by omega)
                  rw [List.length_append, List.length_take]
                  omega
              next hshape =>
                exfalso
                rcases hlist : (cursor.drop (n + 2)).drop size with _ | ⟨a, _ | ⟨b, rest⟩⟩
                · rw [hlist, List.length_nil] at hrest
                  omega
                · rw [hlist, List.length_singleton] at hrest
                  omega
                · exact hshape a b rest hlist

end ToiLang.Http
