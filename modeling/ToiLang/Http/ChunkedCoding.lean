import ToiLang.Http.Chunked

namespace ToiLang.Http

/-- A line in front of a chunk: hexadecimal digits of any case and the chunk's extensions. -/
structure SizeLine where
  digits : Bytes
  extensions : Bytes
  hex : AllHex digits
  digits_ne : digits ≠ []
  begins : extensions = [] ∨
    ∃ space rest, extensions = space ++ 59 :: rest ∧ ∀ c ∈ space, isSpace c = true
  noBreak : findCrlf (digits ++ extensions) = none

namespace SizeLine

def bytes (l : SizeLine) : Bytes := l.digits ++ l.extensions

end SizeLine

structure Chunk where
  line : SizeLine
  data : Bytes
  data_ne : data ≠ []
  size : hexValue line.digits = data.length

def Chunk.bytes (c : Chunk) : Bytes := c.line.bytes ++ 13 :: 10 :: (c.data ++ [13, 10])

/-- The chunked coding of a body: its chunks, the last one of size 0, and the trailer fields. -/
structure ChunkedCoding where
  chunks : List Chunk
  last : SizeLine
  zero : hexValue last.digits = 0
  trailers : List Bytes
  fields : ∀ t ∈ trailers, t ≠ [] ∧ findCrlf t = none

namespace ChunkedCoding

def trailerBytes : List Bytes → Bytes
  | [] => [13, 10]
  | t :: ts => t ++ 13 :: 10 :: trailerBytes ts

def lastBytes (b : ChunkedCoding) : Bytes := b.last.bytes ++ 13 :: 10 :: trailerBytes b.trailers

def bytes (b : ChunkedCoding) : Bytes := b.chunks.flatMap Chunk.bytes ++ b.lastBytes

def body (b : ChunkedCoding) : Bytes := b.chunks.flatMap Chunk.data

end ChunkedCoding

theorem hexDigit_ne_semicolon {c : UInt8} (h : (hexDigit c).isSome) : c ≠ 59 := by
  rintro rfl
  exact absurd h (by decide)

theorem isSpace_ne_semicolon {c : UInt8} (h : isSpace c = true) : c ≠ 59 := by
  rintro rfl
  exact absurd h (by decide)

theorem trimSpace_digits {digits space : Bytes} (hd : AllHex digits) (hne : digits ≠ [])
    (hs : ∀ c ∈ space, isSpace c = true) : trimSpace (digits ++ space) = digits := by
  obtain ⟨d, ds, rfl⟩ := List.exists_cons_of_ne_nil hne
  have hfirst : isSpace d = false := hexDigit_not_space (hd d List.mem_cons_self)
  have hdrop : ((d :: ds) ++ space).dropWhile isSpace = (d :: ds) ++ space := by
    simp [hfirst]
  rw [trimSpace, hdrop]
  have hspace : ((d :: ds) ++ space).rdropWhile isSpace = (d :: ds).rdropWhile isSpace := by
    clear hdrop
    induction space using List.reverseRecOn with
    | nil => rw [List.append_nil]
    | append_singleton space c ih =>
      rw [← List.append_assoc, List.rdropWhile_concat_pos _ _ _ (hs c (by simp))]
      exact ih fun c hc => hs c (by simp [hc])
  rw [hspace, List.rdropWhile_eq_self_iff]
  intro hne
  have hlast := hd _ (List.getLast_mem hne)
  simp [hexDigit_not_space hlast]

theorem SizeLine.token (l : SizeLine) : sizeToken l.bytes = l.digits := by
  have hd : ∀ c ∈ l.digits, decide (c ≠ 59) = true := fun c hc => by
    simpa using hexDigit_ne_semicolon (l.hex c hc)
  rw [sizeToken, bytes]
  rcases l.begins with hnil | ⟨space, rest, hext, hs⟩
  · rw [hnil, List.append_nil, List.takeWhile_eq_self_iff.mpr hd]
    have hspace : ∀ c ∈ ([] : Bytes), isSpace c = true := by simp
    have h := trimSpace_digits l.hex l.digits_ne hspace
    rwa [List.append_nil] at h
  · have hsp : ∀ c ∈ space, decide (c ≠ 59) = true := fun c hc => by
      simpa using isSpace_ne_semicolon (hs c hc)
    rw [hext, List.takeWhile_append_of_pos hd, List.takeWhile_append_of_pos hsp]
    simp only [List.takeWhile_cons, ne_eq, not_true_eq_false, decide_false, Bool.false_eq_true,
      ↓reduceIte, List.append_nil]
    exact trimSpace_digits l.hex l.digits_ne hs

theorem SizeLine.line (l : SizeLine) (rest : Bytes) :
    findCrlf (l.bytes ++ 13 :: 10 :: rest) = some l.bytes.length :=
  findCrlf_line l.noBreak rest

theorem drop_line (line rest : Bytes) : (line ++ 13 :: 10 :: rest).drop (line.length + 2) = rest := by
  rw [← List.drop_drop, List.drop_left]
  rfl

/-- A prefix of a line, its break and a rest: it stops in front of the end of the break, or holds
the line and a prefix of the rest. -/
theorem prefix_line {p line rest : Bytes} (h : p <+: line ++ 13 :: 10 :: rest) :
    p.length < line.length + 2 ∨ ∃ q, p = line ++ 13 :: 10 :: q ∧ q <+: rest := by
  by_cases hlt : p.length < line.length + 2
  · exact .inl hlt
  · have hline : line ++ [13, 10] <+: p := by
      refine List.prefix_of_prefix_length_le ?_ h (by simp; omega)
      exact ⟨rest, by simp⟩
    obtain ⟨q, rfl⟩ := hline
    refine .inr ⟨q, by simp, ?_⟩
    have h : (line ++ [13, 10]) ++ q <+: (line ++ [13, 10]) ++ rest := by simpa using h
    exact (List.prefix_append_right_inj _).mp h

theorem skipTrailers_bytes {ts : List Bytes} (hts : ∀ t ∈ ts, t ≠ [] ∧ findCrlf t = none)
    (rest : Bytes) {fuel : Nat} (hfuel : ts.length < fuel) :
    skipTrailers fuel (ChunkedCoding.trailerBytes ts ++ rest) = some rest := by
  induction ts generalizing fuel with
  | nil =>
    obtain ⟨fuel, rfl⟩ := Nat.exists_eq_succ_of_ne_zero (Nat.ne_of_gt hfuel)
    rfl
  | cons t ts ih =>
    obtain ⟨fuel, rfl⟩ := Nat.exists_eq_succ_of_ne_zero (Nat.ne_of_gt (Nat.lt_of_le_of_lt (Nat.zero_le _) hfuel))
    obtain ⟨hne, hbreak⟩ := hts t List.mem_cons_self
    have hcut : ChunkedCoding.trailerBytes (t :: ts) ++ rest =
        t ++ 13 :: 10 :: (ChunkedCoding.trailerBytes ts ++ rest) := by
      simp [ChunkedCoding.trailerBytes]
    have hpos : t.length ≠ 0 := fun h => hne (List.length_eq_zero_iff.mp h)
    obtain ⟨n, hn⟩ := Nat.exists_eq_succ_of_ne_zero hpos
    have hdrop := drop_line t (ChunkedCoding.trailerBytes ts ++ rest)
    rw [hn] at hdrop
    simp only [skipTrailers, hcut, findCrlf_line hbreak, hn]
    rw [hdrop]
    exact ih (fun t ht => hts t (List.mem_cons_of_mem _ ht))
      (by rw [List.length_cons] at hfuel; omega)

theorem skipTrailers_prefix {ts : List Bytes} (hts : ∀ t ∈ ts, t ≠ [] ∧ findCrlf t = none)
    {p : Bytes} (hp : p <+: ChunkedCoding.trailerBytes ts)
    (hlt : p.length < (ChunkedCoding.trailerBytes ts).length) (fuel : Nat) :
    skipTrailers fuel p = none := by
  induction ts generalizing p fuel with
  | nil =>
    cases fuel with
    | zero => rfl
    | succ fuel =>
      have hnone : findCrlf p = none :=
        @findCrlf_cut [] [] p rfl hp hlt
      simp only [skipTrailers, hnone]
  | cons t ts ih =>
    cases fuel with
    | zero => rfl
    | succ fuel =>
      obtain ⟨hne, hbreak⟩ := hts t List.mem_cons_self
      have hpos : t.length ≠ 0 := fun h => hne (List.length_eq_zero_iff.mp h)
      obtain ⟨n, hn⟩ := Nat.exists_eq_succ_of_ne_zero hpos
      rcases prefix_line hp with hshort | ⟨q, rfl, hq⟩
      · simp only [skipTrailers, findCrlf_cut hbreak hp hshort]
      · have hdrop := drop_line t q
        rw [hn] at hdrop
        simp only [skipTrailers, findCrlf_line hbreak, hn]
        rw [hdrop]
        refine ih (fun t ht => hts t (List.mem_cons_of_mem _ ht)) hq ?_ fuel
        simp only [ChunkedCoding.trailerBytes, List.length_append, List.length_cons] at hlt
        omega

theorem trailers_le (ts : List Bytes) : ts.length < (ChunkedCoding.trailerBytes ts).length := by
  induction ts with
  | nil => simp [ChunkedCoding.trailerBytes]
  | cons t ts ih =>
    simp only [ChunkedCoding.trailerBytes, List.length_append, List.length_cons]
    omega

section Steps

variable {cap fuel : Nat} {decoded rest p : Bytes}

/-- A line whose size is an `int`. -/
theorem decodeChunks_line (l : SizeLine) (hsize : hexValue l.digits < 2 ^ 31) :
    decodeChunks cap (fuel + 1) (l.bytes ++ 13 :: 10 :: rest) decoded =
      if hexValue l.digits = 0 then
        match skipTrailers (rest.length + 1) rest with
        | none => some .incomplete
        | some tail => some (.decoded decoded (cap - tail.length))
      else if 2 ^ 31 ≤ hexValue l.digits + 2 then none
      else if rest.length < hexValue l.digits + 2 then some .incomplete
      else if cap < decoded.length + hexValue l.digits then none
      else
        match rest.drop (hexValue l.digits) with
        | a :: b :: tail =>
          if a ≠ 13 ∨ b ≠ 10 then some .invalid
          else decodeChunks cap fuel tail (decoded ++ rest.take (hexValue l.digits))
        | _ => none := by
  have htake : (l.bytes ++ 13 :: 10 :: rest).take l.bytes.length = l.bytes := List.take_left
  have hparse := parseChunkSize_fits (v := 0) l.hex hsize
  simp only [decodeChunks, l.line, htake, l.token, l.digits_ne, ↓reduceIte, drop_line, hparse]
  rfl

theorem decodeChunks_chunk (c : Chunk) (hsize : c.data.length + 2 < 2 ^ 31)
    (hroom : decoded.length + c.data.length ≤ cap) :
    decodeChunks cap (fuel + 1) (c.bytes ++ rest) decoded =
      decodeChunks cap fuel rest (decoded ++ c.data) := by
  have hcut : c.bytes ++ rest = c.line.bytes ++ 13 :: 10 :: (c.data ++ 13 :: 10 :: rest) := by
    simp [Chunk.bytes]
  have hpos : c.data.length ≠ 0 := fun h => c.data_ne (List.length_eq_zero_iff.mp h)
  have hlen : ¬(c.data ++ 13 :: 10 :: rest).length < c.data.length + 2 := by
    simp only [List.length_append, List.length_cons]
    omega
  have hv := c.size
  rw [hcut, decodeChunks_line c.line (by omega), hv, if_neg hpos, if_neg (by omega), if_neg hlen,
    if_neg (by omega), List.drop_left, List.take_left]
  simp

/-- A chunk that is cut. -/
theorem decodeChunks_cut (c : Chunk) (hsize : c.data.length + 2 < 2 ^ 31)
    (hp : p <+: c.bytes) (hlt : p.length < c.bytes.length) :
    decodeChunks cap (fuel + 1) p decoded = some .incomplete := by
  have hpos : c.data.length ≠ 0 := fun h => c.data_ne (List.length_eq_zero_iff.mp h)
  have hv := c.size
  rcases prefix_line hp with hshort | ⟨q, rfl, hq⟩
  · simp only [decodeChunks, findCrlf_cut c.line.noBreak hp hshort]
  · have hqlen : q.length < c.data.length + 2 := by
      simp only [Chunk.bytes, List.length_append, List.length_cons, List.length_nil] at hlt
      omega
    rw [decodeChunks_line c.line (by omega), hv, if_neg hpos, if_neg (by omega), if_pos hqlen]

theorem decodeChunks_last (b : ChunkedCoding) :
    decodeChunks cap (fuel + 1) (b.lastBytes ++ rest) decoded =
      some (.decoded decoded (cap - rest.length)) := by
  have hcut : b.lastBytes ++ rest =
      b.last.bytes ++ 13 :: 10 :: (ChunkedCoding.trailerBytes b.trailers ++ rest) := by
    simp [ChunkedCoding.lastBytes]
  have htrailers := trailers_le b.trailers
  have hv := b.zero
  rw [hcut, decodeChunks_line b.last (by omega), if_pos hv,
    skipTrailers_bytes b.fields rest (by rw [List.length_append]; omega)]

theorem decodeChunks_last_cut (b : ChunkedCoding) (hp : p <+: b.lastBytes)
    (hlt : p.length < b.lastBytes.length) :
    decodeChunks cap (fuel + 1) p decoded = some .incomplete := by
  have hv := b.zero
  rcases prefix_line hp with hshort | ⟨q, rfl, hq⟩
  · simp only [decodeChunks, findCrlf_cut b.last.noBreak hp hshort]
  · have hqlen : q.length < (ChunkedCoding.trailerBytes b.trailers).length := by
      simp only [ChunkedCoding.lastBytes, List.length_append, List.length_cons] at hlt
      omega
    rw [decodeChunks_line b.last (by omega), if_pos hv, skipTrailers_prefix b.fields hq hqlen]

end Steps

theorem chunk_le (c : Chunk) : c.data.length + 2 < c.bytes.length := by
  have hline : c.line.bytes.length ≠ 0 := by
    rw [SizeLine.bytes, List.length_append]
    have hd : c.line.digits.length ≠ 0 := fun h => c.line.digits_ne (List.length_eq_zero_iff.mp h)
    omega
  simp only [Chunk.bytes, List.length_append, List.length_cons, List.length_nil]
  omega

theorem decodeChunks_bytes (b : ChunkedCoding) {cap fuel : Nat} {chunks : List Chunk}
    {decoded rest : Bytes} (hfuel : (chunks.flatMap Chunk.bytes).length < fuel)
    (hcap : decoded.length + (chunks.flatMap Chunk.bytes).length ≤ cap)
    (hlen : (chunks.flatMap Chunk.bytes).length < 2 ^ 31) :
    decodeChunks cap fuel (chunks.flatMap Chunk.bytes ++ (b.lastBytes ++ rest)) decoded =
      some (.decoded (decoded ++ chunks.flatMap Chunk.data) (cap - rest.length)) := by
  induction chunks generalizing fuel decoded with
  | nil =>
    obtain ⟨fuel, rfl⟩ := Nat.exists_eq_succ_of_ne_zero (Nat.ne_of_gt (Nat.lt_of_le_of_lt (Nat.zero_le _) hfuel))
    rw [List.flatMap_nil, List.flatMap_nil, List.nil_append, List.append_nil, decodeChunks_last]
  | cons c cs ih =>
    have hc := chunk_le c
    rw [List.flatMap_cons, List.length_append] at hfuel hcap hlen
    obtain ⟨fuel, rfl⟩ := Nat.exists_eq_succ_of_ne_zero (Nat.ne_of_gt (Nat.lt_of_le_of_lt (Nat.zero_le _) hfuel))
    rw [List.flatMap_cons, List.append_assoc, decodeChunks_chunk c (by omega) (by omega),
      ih (by omega) (by rw [List.length_append]; omega) (by omega), List.flatMap_cons,
      List.append_assoc]

/-- A coding that is cut, within a chunk or behind some. -/
theorem decodeChunks_prefix (b : ChunkedCoding) {cap fuel : Nat} {chunks : List Chunk}
    {decoded p : Bytes} (hfuel : p.length < fuel) (hcap : decoded.length + p.length ≤ cap)
    (hlen : p.length < 2 ^ 31) (hsizes : ∀ c ∈ chunks, c.data.length + 2 < 2 ^ 31)
    (hp : p <+: chunks.flatMap Chunk.bytes ++ b.lastBytes)
    (hlt : p.length < (chunks.flatMap Chunk.bytes ++ b.lastBytes).length) :
    decodeChunks cap fuel p decoded = some .incomplete := by
  induction chunks generalizing fuel decoded p with
  | nil =>
    obtain ⟨fuel, rfl⟩ := Nat.exists_eq_succ_of_ne_zero (Nat.ne_of_gt (Nat.lt_of_le_of_lt (Nat.zero_le _) hfuel))
    exact decodeChunks_last_cut b hp hlt
  | cons c cs ih =>
    obtain ⟨fuel, rfl⟩ := Nat.exists_eq_succ_of_ne_zero (Nat.ne_of_gt (Nat.lt_of_le_of_lt (Nat.zero_le _) hfuel))
    have hsize := hsizes c List.mem_cons_self
    rw [List.flatMap_cons, List.append_assoc] at hp hlt
    by_cases hcut : p.length < c.bytes.length
    · have hpc : p <+: c.bytes :=
        List.prefix_of_prefix_length_le hp (List.prefix_append _ _) (Nat.le_of_lt hcut)
      exact decodeChunks_cut c hsize hpc hcut
    · have hcp : c.bytes <+: p :=
        List.prefix_of_prefix_length_le (List.prefix_append _ _) hp (Nat.not_lt.mp hcut)
      obtain ⟨q, rfl⟩ := hcp
      have hc := chunk_le c
      have hq := (List.prefix_append_right_inj _).mp hp
      rw [List.length_append] at hfuel hcap hlen hlt
      rw [List.length_append] at hlt
      rw [decodeChunks_chunk c hsize (by omega)]
      exact ih (by omega) (by rw [List.length_append]; omega) (by omega)
        (fun c hc => hsizes c (List.mem_cons_of_mem _ hc)) hq (by omega)

/-- A chunked coding is decoded, whatever follows it. -/
theorem decodeChunkedBody_bytes (b : ChunkedCoding) (rest : Bytes)
    (hlen : (b.bytes ++ rest).length < 2 ^ 31) :
    decodeChunkedBody (b.bytes ++ rest) = some (.decoded b.body b.bytes.length) := by
  rw [decodeChunkedBody, ChunkedCoding.bytes, List.append_assoc]
  rw [ChunkedCoding.bytes, List.append_assoc, List.length_append] at hlen
  rw [decodeChunks_bytes b (by rw [List.length_append]; omega)
    (by rw [List.length_append, List.length_nil]; omega) (by omega)]
  simp only [List.length_append, List.nil_append, ChunkedCoding.body]
  congr 2
  omega

theorem decodeChunkedBody_prefix (b : ChunkedCoding) {p : Bytes} (hlen : b.bytes.length < 2 ^ 31)
    (hp : p <+: b.bytes) (hne : p ≠ b.bytes) : decodeChunkedBody p = some .incomplete := by
  have hlt : p.length < b.bytes.length :=
    Nat.lt_of_le_of_ne hp.length_le fun h => hne (hp.eq_of_length h)
  have hsizes : ∀ c ∈ b.chunks, c.data.length + 2 < 2 ^ 31 := by
    intro c hc
    have hmem : c.bytes.length ≤ (b.chunks.flatMap Chunk.bytes).length :=
      (List.sublist_flatten_of_mem (List.mem_map_of_mem hc)).length_le
    have hcle := chunk_le c
    rw [ChunkedCoding.bytes, List.length_append] at hlen
    omega
  exact decodeChunks_prefix b (by omega) (by rw [List.length_nil]; omega) (by omega) hsizes hp hlt

/-- The decoder overflows no `int` and stays within its buffers exactly where the sizes fit, and it
decodes every chunked coding. -/
theorem decodeChunkedBody_defined_iff {body : Bytes} (hlen : body.length < 2 ^ 31) :
    (decodeChunkedBody body ≠ none ↔ SizesFit body) ∧
    ∀ (b : ChunkedCoding) (rest : Bytes), (b.bytes ++ rest).length < 2 ^ 31 →
      decodeChunkedBody (b.bytes ++ rest) = some (.decoded b.body b.bytes.length) ∧
      ∀ p, p <+: b.bytes → p ≠ b.bytes → decodeChunkedBody p = some .incomplete := by
  refine ⟨decodeChunks_defined (Nat.lt_succ_self _) (by simp) hlen, fun b rest hlen =>
    ⟨decodeChunkedBody_bytes b rest hlen, ?_⟩⟩
  intro p hp hne
  rw [List.length_append] at hlen
  exact decodeChunkedBody_prefix b (by omega) hp hne

/-- One chunk with a lower-case size and an extension, and a trailer field. -/
def sampleCoding : ChunkedCoding where
  chunks := [⟨⟨ascii "b", ascii " ;x=1", by decide +kernel, by decide +kernel,
    .inr ⟨[32], ascii "x=1", by decide +kernel, by decide +kernel⟩, by decide +kernel⟩, ascii "hello world", by decide +kernel,
    by decide +kernel⟩]
  last := ⟨ascii "0", [], by decide +kernel, by decide +kernel, .inl rfl, by decide +kernel⟩
  zero := by decide +kernel
  trailers := [ascii "A: b"]
  fields := by decide +kernel

theorem decoded_sampleCoding :
    (decodeChunkedBody (ascii "b\r\n") ≠ none ↔ SizesFit (ascii "b\r\n")) ∧
    decodeChunkedBody (sampleCoding.bytes ++ ascii "GET") =
      some (.decoded (ascii "hello world") sampleCoding.bytes.length) ∧
    ∀ p, p <+: sampleCoding.bytes → p ≠ sampleCoding.bytes → decodeChunkedBody p = some .incomplete :=
  ⟨(decodeChunkedBody_defined_iff (by decide +kernel)).1,
    (@decodeChunkedBody_defined_iff (ascii "b\r\n") (by decide +kernel)).2 sampleCoding _ (by decide +kernel)⟩

/-- A chunk of 2^31 bytes is announced: the shift of its size overflows. -/
theorem chunk_size_overflows :
    ¬ ∀ body : Bytes, body.length < 2 ^ 31 → decodeChunkedBody body ≠ none := by
  intro hall
  exact hall (ascii "80000000\r\n") (by decide +kernel) (by decide +kernel)

end ToiLang.Http
