import ToiLang.Http.ChunkedCoding
import ToiLang.Http.Delivery
import ToiLang.Http.MessageRoundTrip
import ToiLang.Http.ResponseHead

namespace ToiLang.Http

/-! A streamed body read back. -/

theorem hexDigit_digitChar {d : Nat} (h : d < 16) : hexDigit (UInt8.ofNat (Nat.digitChar d).toNat) = some d := by
  have hall : ∀ d < 16, hexDigit (UInt8.ofNat (Nat.digitChar d).toNat) = some d := by decide
  exact hall d h

theorem hexFrom_append (v : Nat) (a b : Bytes) : hexFrom v (a ++ b) = hexFrom (hexFrom v a) b := by
  induction a generalizing v with
  | nil => rfl
  | cons c a ih => exact ih _

theorem hexText_step {n : Nat} (h : 16 ≤ n) :
    hexText n = hexText (n / 16) ++ [UInt8.ofNat (Nat.digitChar (n % 16)).toNat] := by
  rw [hexText, Nat.toDigits_of_base_le (by omega) h, List.map_append]
  rfl

/-- The digits of `%x` say the number. -/
theorem hexText_spec (n : Nat) : AllHex (hexText n) ∧ hexText n ≠ [] ∧ hexValue (hexText n) = n := by
  induction n using Nat.strong_induction_on with
  | _ n ih =>
    by_cases h : n < 16
    · have htext : hexText n = [UInt8.ofNat (Nat.digitChar n).toNat] := by
        rw [hexText, Nat.toDigits_of_lt_base h]
        rfl
      have hdigit := hexDigit_digitChar h
      rw [htext]
      refine ⟨?_, by simp, ?_⟩
      · intro c hc
        rw [List.mem_singleton.mp hc, hdigit]
        rfl
      · simp [hexValue, hexFrom, hdigit]
    · have hle : 16 ≤ n := by omega
      obtain ⟨hhex, hne, hval⟩ := ih (n / 16) (by omega)
      have hdigit := hexDigit_digitChar (Nat.mod_lt n (show 0 < 16 by decide))
      rw [hexText_step hle]
      refine ⟨?_, by simp, ?_⟩
      · intro c hc
        rcases List.mem_append.mp hc with hc | hc
        · exact hhex c hc
        · rw [List.mem_singleton.mp hc, hdigit]
          rfl
      · rw [hexValue, hexFrom_append]
        rw [hexValue] at hval
        simp only [hval, hexFrom, hdigit, Option.getD_some]
        omega

theorem hex_no_cr {s : Bytes} (h : AllHex s) : findCrlf s = none := by
  cases hn : findCrlf s with
  | none => rfl
  | some n =>
    obtain ⟨-, hcut⟩ := findCrlf_some hn
    have hmem : (13 : UInt8) ∈ s := by
      rw [hcut]
      simp
    exact absurd (h 13 hmem) (by decide)

theorem no_extensions : ([] : Bytes) = [] ∨
    ∃ space rest, [] = space ++ (59 : UInt8) :: rest ∧ ∀ c ∈ space, isSpace c = true := .inl rfl

/-- The line in front of a chunk. -/
def sizeLine (n : Nat) : SizeLine where
  digits := hexText n
  extensions := []
  hex := (hexText_spec n).1
  digits_ne := (hexText_spec n).2.1
  begins := no_extensions
  noBreak := by
    rw [List.append_nil]
    exact hex_no_cr (hexText_spec n).1

theorem sizeLine_bytes (n : Nat) : (sizeLine n).bytes = hexText n := by
  rw [SizeLine.bytes, sizeLine, List.append_nil]

def streamChunk (data : Bytes) (h : data ≠ []) : Chunk where
  line := sizeLine data.length
  data := data
  data_ne := h
  size := (hexText_spec data.length).2.2

theorem streamChunk_bytes {data : Bytes} (h : data ≠ []) : (streamChunk data h).bytes = chunkBytes data := by
  rw [Chunk.bytes, streamChunk, sizeLine_bytes, chunkBytes]
  simp [crlf]

/-- The last chunk, without trailer fields. -/
def streamEnd : ChunkedCoding where
  chunks := []
  last := sizeLine 0
  zero := (hexText_spec 0).2.2
  trailers := []
  fields := by simp

theorem streamEnd_bytes : streamEnd.lastBytes = lastChunk := by
  have hzero : hexText 0 = [48] := by decide
  have hlast : lastChunk = [48, 13, 10, 13, 10] := by decide
  rw [ChunkedCoding.lastBytes, streamEnd, sizeLine_bytes, hzero, hlast]
  rfl

/-- What the chunks say together. -/
def streamData (chunks : List (Option Bytes)) : Bytes := chunks.flatMap fun chunk => chunk.getD []

variable {cap fuel k : Nat} {cursor decoded body : Bytes}

/-- The decoder only adds to what it has decoded. -/
theorem decodeChunks_extends (h : decodeChunks cap fuel cursor decoded = some (.decoded body k)) :
    decoded <+: body := by
  induction fuel generalizing cursor decoded with
  | zero => cases h
  | succ fuel ih =>
    rw [decodeChunks] at h
    cases hn : findCrlf cursor with
    | none => simp [hn] at h
    | some n =>
      simp only [hn] at h
      split_ifs at h
      · cases h
      · split at h
        · cases h
        · cases h
        · split_ifs at h
          · split at h
            · cases h
            · obtain ⟨rfl, -⟩ := ChunkResult.decoded.inj (Option.some.inj h)
              exact List.prefix_refl _
          · cases h
          · split at h
            · split_ifs at h
              · cases h
              · exact (List.prefix_append _ _).trans (ih h)
            · cases h

/-- A chunk that holds a zero byte is not decoded to what it says. -/
theorem decodeChunks_zero {data rest more : Bytes} (h0 : (0 : UInt8) ∈ data)
    (hlen : data.length < 2 ^ 31) :
    decodeChunks cap fuel (chunkFrame data ++ rest) decoded ≠ some (.decoded (decoded ++ (data ++ more)) k) := by
  intro h
  cases fuel with
  | zero => cases h
  | succ fuel =>
    have hcut : chunkFrame data ++ rest = (sizeLine data.length).bytes ++
        13 :: 10 :: (data.takeWhile (· ≠ 0) ++ 13 :: 10 :: rest) := by
      rw [sizeLine_bytes, chunkFrame]
      simp [crlf]
    have hvalue : hexValue (sizeLine data.length).digits = data.length := (hexText_spec data.length).2.2
    have hne : data ≠ [] := List.ne_nil_of_mem h0
    have hpos : data.length ≠ 0 := fun h => hne (List.length_eq_zero_iff.mp h)
    obtain ⟨d, e, hdata, hd⟩ := List.eq_append_cons_of_mem h0
    have hstop : data.takeWhile (· ≠ 0) = d := by
      rw [hdata]
      exact (takeWhile_append_stop hd).1
    have hlt : d.length < data.length := by
      rw [hdata, List.length_append, List.length_cons]
      omega
    rw [hcut, hstop, decodeChunks_line _ (by rw [hvalue]; exact hlen), hvalue, if_neg hpos] at h
    split_ifs at h
    · cases h
    · split at h
      · split_ifs at h
        · cases h
        · have hprefix := decodeChunks_extends h
          rw [List.prefix_append_right_inj] at hprefix
          -- the break behind the cut text stands where the zero byte should be
          have htake : (d ++ 13 :: 10 :: rest).take data.length = d ++ (13 :: 10 :: rest).take (data.length - d.length) := by
            rw [List.take_append, List.take_of_length_le (Nat.le_of_lt hlt)]
          obtain ⟨n, hn⟩ := Nat.exists_eq_succ_of_ne_zero (show data.length - d.length ≠ 0 by omega)
          rw [htake, hn, hdata, List.append_assoc, List.prefix_append_right_inj] at hprefix
          rw [List.take_succ_cons, List.cons_append, List.cons_prefix_cons] at hprefix
          exact absurd hprefix.1 (by decide)
      · cases h

theorem streamData_cons (chunk : Option Bytes) (chunks : List (Option Bytes)) :
    streamData (chunk :: chunks) = chunk.getD [] ++ streamData chunks := List.flatMap_cons

/-- A stream that comes back holds no zero byte. -/
theorem noZero_of_decoded {chunks : List (Option Bytes)} {rest : Bytes}
    (hlen : ((chunkFrames chunks).flatten ++ rest).length < 2 ^ 31)
    (hsize : ∀ data, some data ∈ chunks → data.length < 2 ^ 31)
    (hcap : decoded.length + ((chunkFrames chunks).flatten ++ rest).length ≤ cap)
    (h : decodeChunks cap fuel ((chunkFrames chunks).flatten ++ rest) decoded =
      some (.decoded (decoded ++ streamData chunks) k)) :
    ∀ data, some data ∈ chunks → (0 : UInt8) ∉ data := by
  induction chunks generalizing fuel decoded with
  | nil => exact fun _ hd => nomatch hd
  | cons chunk chunks ih =>
    have hsizes : ∀ data, some data ∈ chunks → data.length < 2 ^ 31 :=
      fun data hd => hsize data (List.mem_cons_of_mem _ hd)
    have hskip : ∀ (hframe : (chunkFrames [chunk]).flatten = []) (hdata : chunk.getD [] = []),
        ∀ data, some data ∈ chunks → (0 : UInt8) ∉ data := by
      intro hframe hdata
      rw [chunkFrames_cons, hframe, List.nil_append] at hlen hcap h
      rw [streamData_cons, hdata, List.nil_append] at h
      exact ih hlen hsizes hcap h
    cases chunk with
    | none =>
      have hrest := hskip rfl rfl
      intro data hd
      rcases List.mem_cons.mp hd with hd | hd
      · cases hd
      · exact hrest data hd
    | some data =>
      by_cases he : data = []
      · subst he
        have hrest := hskip rfl rfl
        intro data hd
        rcases List.mem_cons.mp hd with hd | hd
        · rw [Option.some.inj hd]
          simp
        · exact hrest data hd
      · have hframe : (chunkFrames [some data]).flatten = chunkFrame data := by
          simp [chunkFrames, he]
        have hone := hsize data List.mem_cons_self
        rw [chunkFrames_cons, hframe, List.append_assoc] at hlen hcap h
        rw [streamData_cons, Option.getD_some] at h
        have h0 : (0 : UInt8) ∉ data := fun hz => decodeChunks_zero hz hone h
        cases fuel with
        | zero => cases h
        | succ fuel =>
          have hbytes : chunkFrame data = (streamChunk data he).bytes := by
            rw [chunkFrame_of_no_zero h0, streamChunk_bytes]
          have hle := chunk_le (streamChunk data he)
          rw [hbytes, List.length_append] at hlen hcap
          have hdata : (streamChunk data he).data = data := rfl
          rw [hdata] at hle
          rw [hbytes, decodeChunks_chunk _ (by rw [hdata]; omega) (by rw [hdata]; omega), hdata,
            ← List.append_assoc] at h
          have hrest := ih (by omega) hsizes (by rw [List.length_append]; omega) h
          intro data' hd
          rcases List.mem_cons.mp hd with hd | hd
          · rw [Option.some.inj hd]
            exact h0
          · exact hrest data' hd

/-- The buffer of `string.format` starts with 144 bytes for the format of a frame and is doubled in an
`int`. -/
def formatLimit : Nat := 144 * 2 ^ 23

/-- The frames of the chunks; `none` where one does not fit the buffer of `string.format`. -/
def formatFrames (chunks : List (Option Bytes)) : Option (List Bytes) :=
  if chunks.all fun chunk => (chunkFrame (chunk.getD [])).length + 1 < formatLimit then
    some (chunkFrames chunks)
  else none

/-- `decode_chunked_body`, whose lengths are of type `int`. -/
def decodeStream (s : Bytes) : Option ChunkResult := if s.length < 2 ^ 31 then decodeChunkedBody s else none

/-- The chunks with their lengths. -/
def streamChunks (chunks : List (Option Bytes)) : List Chunk :=
  chunks.filterMap fun
    | none => none
    | some data => if h : data = [] then none else some (streamChunk data h)

theorem streamChunks_bytes (chunks : List (Option Bytes)) :
    (streamChunks chunks).flatMap Chunk.bytes = streamBytes chunks ∧
      (streamChunks chunks).flatMap Chunk.data = streamData chunks := by
  induction chunks with
  | nil => exact ⟨rfl, rfl⟩
  | cons chunk chunks ih =>
    have hcons : streamChunks (chunk :: chunks) = streamChunks [chunk] ++ streamChunks chunks := by
      rw [streamChunks, streamChunks, streamChunks, ← List.filterMap_append, List.singleton_append]
    rw [hcons, List.flatMap_append, List.flatMap_append, ih.1, ih.2, streamData_cons, streamBytes, streamBytes,
      List.flatMap_cons]
    cases chunk with
    | none => exact ⟨rfl, rfl⟩
    | some data =>
      by_cases he : data = []
      · simp [streamChunks, he]
      · have hbytes := streamChunk_bytes he
        have hdata : (streamChunk data he).data = data := rfl
        simp [streamChunks, he, hbytes, hdata]

theorem streamData_decoded {chunks : List (Option Bytes)} (h0 : ∀ data, some data ∈ chunks → (0 : UInt8) ∉ data)
    (hlen : (streamBytes chunks ++ lastChunk).length < 2 ^ 31) :
    decodeStream ((chunkFrames chunks).flatten ++ lastChunk) =
      some (.decoded (streamData chunks) ((chunkFrames chunks).flatten ++ lastChunk).length) := by
  obtain ⟨hbytes, hdata⟩ := streamChunks_bytes chunks
  rw [chunkFrames_flatten h0, decodeStream, if_pos hlen, decodeChunkedBody]
  rw [List.length_append] at hlen
  have hdecode := @decodeChunks_bytes streamEnd (streamBytes chunks ++ lastChunk).length
    ((streamBytes chunks ++ lastChunk).length + 1) (streamChunks chunks) [] []
    (by rw [hbytes, List.length_append]; omega) (by rw [hbytes, List.length_append, List.length_nil]; omega)
    (by rw [hbytes]; omega)
  rw [hbytes, hdata, streamEnd_bytes, List.append_nil, List.nil_append] at hdecode
  exact hdecode

end ToiLang.Http
