import ToiLang.Http.ChunkedStream

namespace ToiLang.Http

/-! Streamed responses: the head and the chunks. -/

/-- The names that `send_chunked_stream` sets or deletes. -/
def overwritten (name : Bytes) : Bool :=
  name ∈ [ascii "Transfer-Encoding", ascii "Content-Length", ascii "content-length"]

def transferEncoding : Bytes × Bytes := (ascii "Transfer-Encoding", ascii "chunked")

def streamHeaders (headers : HeaderTable) : HeaderTable :=
  transferEncoding :: headers.filter fun h => !overwritten h.1

/-- A call of `send_chunked_stream`, with the slots of the headers table as its assignments leave
them; its chunks are strings. -/
structure StreamCall where
  status : Int
  headers : HeaderTable
  slots : HeaderTable
  keepAlive : Bool
  chunks : List (Option Bytes)
  slots_perm : slots.Perm (streamHeaders headers)
  strings : ∀ data, some data ∈ chunks → data.length ≤ Struct.maxLength

/-- What it gives to `client.send`: the head and the frames behind it. -/
def StreamCall.sends (c : StreamCall) : Option (Bytes × List Bytes) :=
  (httpResponse c.status c.slots []).bind fun head =>
    (formatFrames c.chunks).map fun frames =>
      (decorateConnectionHeaders head c.keepAlive, frames ++ [lastChunk])

/-- A line of a Content-Length header, in any case of its letters. -/
def SaysContentLength (l : Bytes) : Prop := ascii "content-length:" <+: l.map toLower

def transferLine : Bytes := headerLine transferEncoding

/-- One line, headers that are complete, and nothing behind them. -/
def StreamHead (head : Bytes) : Prop :=
  ∃ line ls, head = line ++ 13 :: 10 :: (joinLines ls ++ [13, 10]) ∧ findCrlf line = none ∧
    (∀ l ∈ ls, HeadLine l) ∧ transferLine ∈ ls ∧ ∀ l ∈ ls, ¬SaysContentLength l

/-- The text of the head is sent without being cut, it is a stream's head, and the frames behind it
decode to the chunks. -/
def StreamCall.Framed (c : StreamCall) : Prop :=
  httpResponse c.status c.slots [] = some (responseText c.status c.slots []) ∧ ∃ head frames, c.sends = some (head, frames) ∧ StreamHead head ∧
    decodeStream frames.flatten = some (.decoded (streamData c.chunks) frames.flatten.length)

/-- Header values without an empty line or a Content-Length of their own, chunks without a zero
byte, and lengths that the buffers hold. -/
structure StreamCall.Plain (c : StreamCall) : Prop where
  short : (responseText c.status c.slots []).length ≤ Struct.maxLength
  lines : ∀ h ∈ c.headers, overwritten h.1 = false → ∀ l ∈ crlfLines (headerLine h),
    l ≠ [] ∧ ¬SaysContentLength l
  noZero : ∀ data, some data ∈ c.chunks → (0 : UInt8) ∉ data
  fits : ∀ data, some data ∈ c.chunks → (chunkBytes data).length + 1 < formatLimit
  decodable : (streamBytes c.chunks ++ lastChunk).length < 2 ^ 31

variable {line : Bytes} {ls : List Bytes}

theorem headerLines_crlfLines (headers : HeaderTable) :
    headerLines headers = joinLines (headers.flatMap fun h => crlfLines (headerLine h)) := by
  have hone : ∀ h : Bytes × Bytes, headerLine h ++ [13, 10] = joinLines (crlfLines (headerLine h)) :=
    fun h => (crlfLines_join (headerLine h)).symm
  rw [headerLines, joinLines, List.flatMap_assoc]
  exact congrArg (fun f => headers.flatMap f) (funext hone)

/-- The status line. -/
def statusLine (status : Int) : Bytes := ascii "HTTP/1.1 " ++ intText status ++ 32 :: getStatusReason status

theorem findCrlf_statusLine (status : Int) : findCrlf (statusLine status) = none := by
  have hdigits := digits_no_byte (Double.isDigits_natText status.natAbs) (c := 13) (by decide)
  have hreason := statusReason_no_cr status
  have hfront : (13 : UInt8) ∉ ascii "HTTP/1.1 " := by
    rw [ascii_ofList]
    decide
  have hint : (13 : UInt8) ∉ intText status := by
    unfold intText
    split_ifs
    · simpa using hdigits
    · exact hdigits
  refine findCrlf_of_no_cr ?_
  simp [statusLine, hfront, hint, hreason]

theorem responseText_lines (status : Int) (slots : HeaderTable) :
    responseText status slots [] = statusLine status ++
      13 :: 10 :: (joinLines (slots.flatMap fun h => crlfLines (headerLine h)) ++ [13, 10]) := by
  rw [← headerLines_crlfLines]
  simp [responseText, statusLine]

/-- A Content-Length is no Connection header. -/
theorem contentLength_other {l : Bytes} (h : SaysContentLength l) {n : Nat}
    (hn : strstr l [58] = some (n + 1)) :
    (stringTrim (l.take (n + 1))).map toLower ≠ (ascii "Connection").map toLower := by
  obtain ⟨t, ht⟩ := h
  have hsplit : ascii "content-length:" ++ t = ascii "content-length" ++ 58 :: t := rfl
  rw [hsplit] at ht
  obtain ⟨a, b, rfl, hname, hb⟩ := List.map_eq_append_iff.mp ht.symm
  obtain ⟨c, b, rfl, hc, -⟩ := List.map_eq_cons_iff.mp hb
  have hcolon58 : c = 58 := by
    unfold toLower at hc
    split_ifs at hc with hupper
    · have hnat := congrArg UInt8.toNat hc
      have hlow := UInt8.le_iff_toNat_le.mp hupper.1
      have hhigh := UInt8.le_iff_toNat_le.mp hupper.2
      simp only [UInt8.toNat_add, UInt8.reduceToNat] at hnat hlow hhigh
      omega
    · exact hc
  subst hcolon58
  have hnot : ∀ c : UInt8, toLower c ∉ ascii "content-length" → c ∉ a := by
    intro c hc hmem
    rw [← hname] at hc
    exact hc (List.mem_map_of_mem hmem)
  have hname58 : toLower 58 ∉ ascii "content-length" := by
    rw [ascii_ofList]
    decide
  have hname0 : toLower 0 ∉ ascii "content-length" := by
    rw [ascii_ofList]
    decide
  have hcolon : (58 : UInt8) ∉ a := hnot 58 hname58
  have h0 : (0 : UInt8) ∉ a := hnot 0 hname0
  have hplain : ∀ d ∈ a, d ≠ 58 ∧ d ≠ 0 := fun d hd => ⟨fun he => hcolon (he ▸ hd), fun he => h0 (he ▸ hd)⟩
  rw [strstr_char hplain (by decide)] at hn
  rw [← Option.some.inj hn, List.take_left]
  intro he
  have hinfix := (stringTrim_inside a).map toLower
  rw [he, hname] at hinfix
  revert hinfix
  simp only [ascii, String.reduceToList]
  decide

theorem transferLine_other {n : Nat} (hn : strstr transferLine [58] = some (n + 1)) :
    (stringTrim (transferLine.take (n + 1))).map toLower ≠ (ascii "Connection").map toLower := by
  have hat : strstr transferLine [58] = some (16 + 1) := by
    simp only [transferLine, transferEncoding, ascii, String.reduceToList]
    rfl
  rw [hat] at hn
  cases hn
  simp only [transferLine, transferEncoding, ascii, String.reduceToList]
  decide

/-- The line that `decorate_connection_headers` may put in. -/
def connectionLine (keepAlive : Bool) : Bytes :=
  ascii "Connection" ++ [58, 32] ++ ascii (if keepAlive then "keep-alive" else "close")

theorem connectionLine_plain (keepAlive : Bool) :
    HeadLine (connectionLine keepAlive) ∧ ¬SaysContentLength (connectionLine keepAlive) := by
  unfold HeadLine SaysContentLength
  cases keepAlive <;> decide

/-- The decoration goes over complete headers: it keeps what makes them a head of a stream, and what
stands behind. -/
theorem decorate_lines (hline : findCrlf line = none) (hls : ∀ l ∈ ls, HeadLine l) (keepAlive : Bool)
    (rest : Bytes) :
    ∃ ls', decorateConnectionHeaders (line ++ 13 :: 10 :: (joinLines ls ++ 13 :: 10 :: rest)) keepAlive =
        line ++ 13 :: 10 :: (joinLines ls' ++ 13 :: 10 :: rest) ∧
      (∀ l ∈ ls', HeadLine l) ∧ (transferLine ∈ ls → transferLine ∈ ls') ∧
      ((∃ l ∈ ls', SaysContentLength l) ↔ ∃ l ∈ ls, SaysContentLength l) := by
  rw [decorateConnectionHeaders, upsertResponseHeader_head hline hls]
  by_cases h0 : (0 : UInt8) ∈ joined line ls
  · rw [if_pos h0]
    exact ⟨ls, rfl, hls, id, Iff.rfl⟩
  · obtain ⟨hconn, hnot⟩ := connectionLine_plain keepAlive
    rw [if_neg h0]
    refine ⟨_, rfl, fun l hl => ?_, fun hl => mem_upsertLines_of hl fun n => transferLine_other, ?_, ?_⟩
    · rcases mem_upsertLines hl with hl | rfl
      · exact hls l hl
      · exact hconn
    · rintro ⟨l, hl, hcl⟩
      rcases mem_upsertLines hl with hl | rfl
      · exact ⟨l, hl, hcl⟩
      · exact absurd hcl hnot
    · rintro ⟨l, hl, hcl⟩
      exact ⟨l, mem_upsertLines_of hl fun n => contentLength_other hcl, hcl⟩

/-- Lines without a break are a stream's head, once decorated, exactly if none of them is empty or a
Content-Length. -/
theorem streamHead_iff (hline : findCrlf line = none) (hls : ∀ l ∈ ls, findCrlf l = none)
    (ht : transferLine ∈ ls) (keepAlive : Bool) :
    StreamHead (decorateConnectionHeaders (line ++ 13 :: 10 :: (joinLines ls ++ [13, 10])) keepAlive) ↔
      ∀ l ∈ ls, l ≠ [] ∧ ¬SaysContentLength l := by
  have hstops : ∀ rest : Bytes, Stops (13 :: 10 :: rest) := fun rest n hn => (Option.some.inj hn).symm
  -- the head ends at the first empty line
  have hend : ∀ (front : List Bytes) (rest : Bytes), (∀ l ∈ front, HeadLine l) →
      StreamHead (decorateConnectionHeaders (line ++ 13 :: 10 :: (joinLines front ++ 13 :: 10 :: rest)) keepAlive) →
      rest = [] ∧ ∀ l ∈ front, ¬SaysContentLength l := by
    rintro front rest hfront ⟨line', ls'', heq, hline', hls'', -, hcl⟩
    obtain ⟨ls', hdec, hls', -, hsays⟩ := decorate_lines hline hfront keepAlive rest
    rw [hdec] at heq
    have hn := findCrlf_line hline (joinLines ls' ++ 13 :: 10 :: rest)
    rw [heq, findCrlf_line hline'] at hn
    obtain ⟨-, htail⟩ := List.append_inj heq (Option.some.inj hn).symm
    obtain ⟨rfl, hbehind⟩ := lines_unique hls' hls'' (hstops rest) (hstops [])
      (List.cons.inj (List.cons.inj htail).2).2
    refine ⟨(List.cons.inj (List.cons.inj hbehind).2).2, fun l hl hsay => ?_⟩
    obtain ⟨l', hl', hsay'⟩ := hsays.mpr ⟨l, hl, hsay⟩
    exact hcl l' hl' hsay'
  constructor
  · intro h
    have hne : [] ∉ ls := by
      intro hmem
      obtain ⟨front, back, rfl, hfront⟩ := List.eq_append_cons_of_mem hmem
      have hcut : joinLines (front ++ [] :: back) ++ [13, 10] =
          joinLines front ++ 13 :: 10 :: (joinLines back ++ [13, 10]) := by
        simp [joinLines]
      rw [hcut] at h
      obtain ⟨hrest, -⟩ := hend front _ (fun l hl => ⟨fun he => hfront (he ▸ hl),
        hls l (List.mem_append_left _ hl)⟩) h
      simp at hrest
    have hall : ∀ l ∈ ls, HeadLine l := fun l hl => ⟨fun he => hne (he ▸ hl), hls l hl⟩
    exact fun l hl => ⟨(hall l hl).1, (hend ls [] hall h).2 l hl⟩
  · intro h
    have hall : ∀ l ∈ ls, HeadLine l := fun l hl => ⟨(h l hl).1, hls l hl⟩
    obtain ⟨ls', hdec, hls', hte, hsays⟩ := decorate_lines hline hall keepAlive []
    refine ⟨line, ls', hdec, hline, hls', hte ht, fun l hl hsay => ?_⟩
    obtain ⟨l', hl', hsay'⟩ := hsays.mp ⟨l, hl, hsay⟩
    exact (h l' hl').2 hsay'

theorem transferLine_one : crlfLines (headerLine transferEncoding) = [transferLine] :=
  crlfLines_of_free (by decide)

namespace StreamCall

variable {c : StreamCall}

/-- The lines of the headers that are left come from the caller's headers. -/
theorem slots_lines (c : StreamCall) {p : Bytes → Prop} (hp : p transferLine) :
    (∀ l ∈ c.slots.flatMap fun h => crlfLines (headerLine h), p l) ↔
      ∀ h ∈ c.headers, overwritten h.1 = false → ∀ l ∈ crlfLines (headerLine h), p l := by
  have hmem : ∀ h, h ∈ c.slots ↔ h = transferEncoding ∨ h ∈ c.headers ∧ overwritten h.1 = false := by
    intro h
    rw [c.slots_perm.mem_iff, streamHeaders, List.mem_cons, List.mem_filter, Bool.not_eq_true']
  constructor
  · intro hall h hh hname l hl
    exact hall l (List.mem_flatMap.mpr ⟨h, (hmem h).mpr (.inr ⟨hh, hname⟩), hl⟩)
  · intro hall l hl
    obtain ⟨h, hh, hl⟩ := List.mem_flatMap.mp hl
    rcases (hmem h).mp hh with rfl | ⟨hh, hname⟩
    · rw [transferLine_one] at hl
      rw [List.mem_singleton.mp hl]
      exact hp
    · exact hall h hh hname l hl

theorem head_iff (c : StreamCall) :
    StreamHead (decorateConnectionHeaders (responseText c.status c.slots []) c.keepAlive) ↔
      ∀ h ∈ c.headers, overwritten h.1 = false → ∀ l ∈ crlfLines (headerLine h),
        l ≠ [] ∧ ¬SaysContentLength l := by
  have htransfer : transferLine ∈ c.slots.flatMap fun h => crlfLines (headerLine h) := by
    refine List.mem_flatMap.mpr ⟨transferEncoding, c.slots_perm.mem_iff.mpr List.mem_cons_self, ?_⟩
    rw [transferLine_one]
    exact List.mem_singleton_self _
  have hplain : transferLine ≠ [] ∧ ¬SaysContentLength transferLine := by
    unfold SaysContentLength
    decide
  rw [responseText_lines, streamHead_iff (findCrlf_statusLine c.status) ?_ htransfer]
  · exact c.slots_lines hplain
  · intro l hl
    obtain ⟨h, -, hl⟩ := List.mem_flatMap.mp hl
    exact crlfLines_free hl

theorem httpResponse_whole (c : StreamCall) :
    httpResponse c.status c.slots [] = some (responseText c.status c.slots []) ↔
      (responseText c.status c.slots []).length ≤ Struct.maxLength := by
  have hmax : Struct.maxLength < 2 ^ 32 := by decide
  rw [httpResponse, Struct.copyOut]
  constructor
  · intro h
    split_ifs at h with hle
    · have hlen := congrArg List.length (Option.some.inj h)
      rw [List.length_take] at hlen
      omega
  · intro h
    rw [Nat.mod_eq_of_lt (by omega), if_pos h, List.take_length]

theorem frames_fit {chunks : List (Option Bytes)} (h0 : ∀ data, some data ∈ chunks → (0 : UInt8) ∉ data) :
    formatFrames chunks = some (chunkFrames chunks) ↔
      ∀ data, some data ∈ chunks → (chunkBytes data).length + 1 < formatLimit := by
  have hempty : (chunkFrame []).length + 1 < formatLimit := by decide
  unfold formatFrames
  constructor
  · intro h data hd
    split_ifs at h with hall
    · have hone := List.all_eq_true.mp hall _ hd
      rw [Option.getD_some, chunkFrame_of_no_zero (h0 data hd)] at hone
      exact of_decide_eq_true hone
  · intro h
    rw [if_pos]
    refine List.all_eq_true.mpr fun chunk hmem => decide_eq_true ?_
    cases chunk with
    | none => exact hempty
    | some data =>
      rw [Option.getD_some, chunkFrame_of_no_zero (h0 data hmem)]
      exact h data hmem

theorem formatFrames_some {chunks : List (Option Bytes)} {frames : List Bytes}
    (h : formatFrames chunks = some frames) : frames = chunkFrames chunks := by
  unfold formatFrames at h
  split_ifs at h
  exact (Option.some.inj h).symm

theorem decodeStream_some {s body : Bytes} {k : Nat} (h : decodeStream s = some (.decoded body k)) :
    s.length < 2 ^ 31 ∧ decodeChunks s.length (s.length + 1) s [] = some (.decoded ([] ++ body) k) := by
  unfold decodeStream at h
  split_ifs at h with hlen
  exact ⟨hlen, h⟩

theorem Framed.decodes (h : c.Framed) :
    formatFrames c.chunks = some (chunkFrames c.chunks) ∧ decodeStream ((chunkFrames c.chunks).flatten ++ lastChunk) =
      some (.decoded (streamData c.chunks) ((chunkFrames c.chunks).flatten ++ lastChunk).length) := by
  obtain ⟨hwhole, head, frames, hsends, -, hdecode⟩ := h
  rw [sends, hwhole, Option.bind_some] at hsends
  obtain ⟨frames, hframes, hpair⟩ := Option.map_eq_some_iff.mp hsends
  obtain ⟨rfl, rfl⟩ := Prod.mk.inj hpair
  obtain rfl := formatFrames_some hframes
  rw [List.flatten_append, List.flatten_singleton] at hdecode
  exact ⟨hframes, hdecode⟩

theorem Framed.head (h : c.Framed) :
    StreamHead (decorateConnectionHeaders (responseText c.status c.slots []) c.keepAlive) := by
  obtain ⟨hwhole, head, frames, hsends, hhead, -⟩ := h
  rw [sends, hwhole, Option.bind_some] at hsends
  obtain ⟨frames, -, hpair⟩ := Option.map_eq_some_iff.mp hsends
  obtain ⟨rfl, -⟩ := Prod.mk.inj hpair
  exact hhead

/-- A chunk that is a zero byte. -/
def zeroChunk : StreamCall where
  status := 200
  headers := []
  slots := streamHeaders []
  keepAlive := true
  chunks := [some [0]]
  slots_perm := List.Perm.refl _
  strings := by
    intro data hd
    obtain rfl := Option.some.inj (List.mem_singleton.mp hd)
    decide

/-- A handler that announces a length in capitals. -/
def capitals : StreamCall where
  status := 200
  headers := [(ascii "CONTENT-LENGTH", ascii "5")]
  slots := streamHeaders [(ascii "CONTENT-LENGTH", ascii "5")]
  keepAlive := true
  chunks := []
  slots_perm := List.Perm.refl _
  strings := by simp

end StreamCall

end ToiLang.Http
