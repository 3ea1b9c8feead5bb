import ToiLang.Streams

namespace ToiLang

namespace Streams

/-! Runs of a buffer beside those of a file and of the bytes that both stand for. -/

/-- The bytes and the position that a buffer or a file starts with. -/
def opened (initial : Bytes) : Mode → Stream
  | .r => ⟨initial, 0, false⟩
  | .w => ⟨[], 0, false⟩
  | .a => ⟨initial, initial.length, true⟩

/-- The results of a run. -/
def results {σ : Type} (exec : Op → σ → σ × Result) : List Op → σ → List Result
  | [], _ => []
  | op :: ops, s => (exec op s).2 :: results exec ops (exec op s).1

/-- The state that a run ends in. -/
def stateAfter {σ : Type} (exec : Op → σ → σ × Result) : List Op → σ → σ
  | [], s => s
  | op :: ops, s => stateAfter exec ops (exec op s).1

/-- An operation gives the three the same result, and they stand for the same afterwards. -/
structure StepRight (C : Conversions) (plusOne : Double → Double) (grows : Nat → Bool) (op : Op) (b : BufferData)
    (f r : Option Stream) : Prop where
  buffer : (bufferExec C plusOne grows op b).2 = (referenceExec plusOne op r).2
  file : (fileExec C plusOne op f).2 = (referenceExec plusOne op r).2
  bufferAfter : (bufferExec C plusOne grows op b).1.view = (referenceExec plusOne op r).1
  fileAfter : (fileExec C plusOne op f).1 = (referenceExec plusOne op r).1

/-- All operations of a run are right. -/
def RunRight (C : Conversions) (plusOne : Double → Double) (grows : Nat → Bool) :
    List Op → BufferData → Option Stream → Option Stream → Prop
  | [], _, _, _ => True
  | op :: ops, b, f, r => StepRight C plusOne grows op b f r ∧
      RunRight C plusOne grows ops (bufferExec C plusOne grows op b).1 (fileExec C plusOne op f).1
        (referenceExec plusOne op r).1

/-- All operations of a run are clear, in the states that the run of the bytes reaches. -/
def RunClear (C : Conversions) (plusOne : Double → Double) (grows : Nat → Bool) :
    List Op → BufferData → Option Stream → Prop
  | [], _, _ => True
  | op :: ops, b, r => (∀ g, r = some g → op.Clear grows b g) ∧
      RunClear C plusOne grows ops (bufferExec C plusOne grows op b).1 (referenceExec plusOne op r).1

section

variable {C : Conversions} {plusOne : Double → Double} {grows : Nat → Bool}

theorem ofInt64_natCast (n : Nat) : Double.ofInt64 (n : Int) = Double.ofUint64 n := by
  rw [Double.ofInt64_eq, if_neg (Int.not_lt.mpr (Int.natCast_nonneg n)), Int.natAbs_natCast]

/-! A buffer and its file, both open. -/

/-- A buffer and the bytes that it stands for. -/
structure Shows (b : BufferData) (g : Stream) : Prop where
  closed : b.closed = false
  bytes : b.data = g.bytes
  pos : b.pos = g.pos
  append : b.appendMode = g.append

theorem Shows.of_view {b : BufferData} {g : Stream} (h : b.view = some g) : Shows b g := by
  obtain ⟨hc, hb, hp, ha⟩ := view_open h
  exact ⟨hc, hb, hp, ha⟩

theorem Shows.view {b : BufferData} {g : Stream} (h : Shows b g) : b.view = some g := by
  rw [view_of_open h.closed, h.bytes, h.pos, h.append]

theorem Shows.view_pos {b : BufferData} {g : Stream} (h : Shows b g) (p : Nat) :
    BufferData.view { b with pos := p } = some { g with pos := p } := by
  have hb : Shows { b with pos := p } { g with pos := p } := ⟨h.closed, h.bytes, rfl, h.append⟩
  exact hb.view

theorem Shows.view_written {b : BufferData} {g : Stream} (h : Shows b g) (data : Bytes) (cap p : Nat) :
    BufferData.view { b with data := data, cap := cap, pos := p } = some { g with bytes := data, pos := p } := by
  have hb : Shows { b with data := data, cap := cap, pos := p } { g with bytes := data, pos := p } :=
    ⟨h.closed, rfl, rfl, h.append⟩
  exact hb.view

theorem Shows.rest_eq {b : BufferData} {g : Stream} (h : Shows b g) : b.rest = g.rest := by
  unfold BufferData.rest Stream.rest
  rw [h.bytes, h.pos]

theorem bufferExec_open {b : BufferData} (hc : b.closed = false) (op : Op) (hop : op ≠ .close) :
    bufferExec C plusOne grows op b =
      match op with
      | .write s => bufferWrite grows b s
      | .read => bufferRead b
      | .readN x => bufferReadN C b x
      | .readline => bufferReadline b
      | .next control => bufferNext plusOne b control
      | .seek args => bufferSeek C b args
      | .tell => (b, .number (Double.ofUint64 b.pos))
      | .close => (b, .ok) := by
  cases op with
  | close => exact absurd rfl hop
  | write | read | readN | readline | next | seek | tell =>
    unfold bufferExec
    rw [hc]
    rfl

theorem opened_eq (p : Stream × Result) : (let (f, r) := p; (some f, r)) = (some p.1, p.2) := rfl

theorem fileExec_read (g : Stream) :
    fileExec C plusOne .read (some g) = (some (fileRead g).1, (fileRead g).2) := opened_eq (fileRead g)
theorem fileExec_readN (g : Stream) (x : Double) :
    fileExec C plusOne (.readN x) (some g) = (some (fileReadN C g x).1, (fileReadN C g x).2) :=
  opened_eq (fileReadN C g x)
theorem fileExec_readline (g : Stream) :
    fileExec C plusOne .readline (some g) = (some (fileReadline g).1, (fileReadline g).2) := opened_eq (fileReadline g)
theorem fileExec_next (g : Stream) (control : Option Double) :
    fileExec C plusOne (.next control) (some g) =
      (some (fileNext plusOne g control).1, (fileNext plusOne g control).2) :=
  opened_eq (fileNext plusOne g control)
theorem fileExec_seek (g : Stream) (args : SeekArgs) :
    fileExec C plusOne (.seek args) (some g) = (some (fileSeek C g args).1, (fileSeek C g args).2) :=
  opened_eq (fileSeek C g args)

theorem stepRight_iff {op : Op} {b b' : BufferData} {f f' r r' : Option Stream} {x y z : Result}
    (hbuf : bufferExec C plusOne grows op b = (b', x)) (hfile : fileExec C plusOne op f = (f', y))
    (href : referenceExec plusOne op r = (r', z)) :
    StepRight C plusOne grows op b f r ↔ x = z ∧ y = z ∧ b'.view = r' ∧ f' = r' := by
  constructor
  · intro h
    obtain ⟨h₁, h₂, h₃, h₄⟩ := h
    rw [hbuf, href] at h₁ h₃
    rw [hfile, href] at h₂ h₄
    exact ⟨h₁, h₂, h₃, h₄⟩
  · intro h
    obtain ⟨h₁, h₂, h₃, h₄⟩ := h
    exact ⟨by rw [hbuf, href, h₁], by rw [hfile, href, h₂], by rw [hbuf, href, h₃], by rw [hfile, href, h₄]⟩

/-- `read` is right where the string is no longer than an `int`. -/
theorem step_read {b : BufferData} {g : Stream} (h : Shows b g) :
    StepRight C plusOne grows .read b (some g) (some g) ↔ g.rest.length < 2 ^ 31 := by
  have hbuf : bufferExec C plusOne grows .read b =
      if g.rest = [] then (b, .nil) else ({ b with pos := b.data.length }, copied g.rest) := by
    rw [bufferExec_open h.closed _ (by simp)]
    simp only [bufferRead, rest_eq_nil_iff h.bytes h.pos, h.rest_eq]
  have hfile := @fileExec_read C plusOne g
  rw [fileRead_eq] at hfile
  have href : referenceExec plusOne .read (some g) =
      if g.rest = [] then (some g, .nil) else (some (g.advance g.rest.length), .text g.rest) := rfl
  by_cases hnil : g.rest = []
  · rw [if_pos hnil] at hbuf hfile href
    rw [stepRight_iff hbuf hfile href, hnil]
    exact ⟨fun _ => by decide, fun _ => ⟨rfl, rfl, h.view, rfl⟩⟩
  · rw [if_neg hnil] at hbuf hfile href
    have hlen : g.rest.length = g.bytes.length - g.pos := List.length_drop
    have hpositive := List.length_pos_iff.mpr hnil
    have hpos : b.data.length = g.pos + g.rest.length := by
      rw [h.bytes]
      omega
    rw [stepRight_iff hbuf hfile href, h.view_pos, hpos]
    exact ⟨fun hs => copied_eq_iff.mp hs.1, fun hs => ⟨copied_eq_iff.mpr hs, copied_eq_iff.mpr hs, rfl, rfl⟩⟩

/-- `readline` is right where the line is no longer than an `int`. -/
theorem step_readline {b : BufferData} {g : Stream} (h : Shows b g) :
    StepRight C plusOne grows .readline b (some g) (some g) ↔ (lineOf g.rest).length < 2 ^ 31 := by
  obtain ⟨htake, hbehind⟩ := bufferLine_eq h.bytes h.pos
  have hbuf : bufferExec C plusOne grows .readline b =
      if g.rest = [] then (b, .nil) else ({ b with pos := g.skipLine.pos }, copied (lineOf g.rest)) := by
    rw [bufferExec_open h.closed _ (by simp)]
    simp only [bufferReadline, rest_eq_nil_iff h.bytes h.pos, htake, hbehind]
  have hfile := @fileExec_readline C plusOne g
  rw [fileReadline_eq] at hfile
  have href : referenceExec plusOne .readline (some g) =
      if g.rest = [] then (some g, .nil) else (some g.skipLine, .text (lineOf g.rest)) := rfl
  by_cases hnil : g.rest = []
  · rw [if_pos hnil] at hbuf hfile href
    rw [stepRight_iff hbuf hfile href, hnil]
    exact ⟨fun _ => by decide, fun _ => ⟨rfl, rfl, h.view, rfl⟩⟩
  · rw [if_neg hnil] at hbuf hfile href
    rw [stepRight_iff hbuf hfile href, h.view_pos]
    exact ⟨fun hs => copied_eq_iff.mp hs.1, fun hs => ⟨copied_eq_iff.mpr hs, copied_eq_iff.mpr hs, rfl, rfl⟩⟩

/-- A turn of an iteration is right where the line is no longer than an `int`. -/
theorem step_next {b : BufferData} {g : Stream} (h : Shows b g) (control : Option Double) :
    StepRight C plusOne grows (.next control) b (some g) (some g) ↔ (lineOf g.rest).length < 2 ^ 31 := by
  obtain ⟨htake, hbehind⟩ := bufferLine_eq h.bytes h.pos
  have hbuf : bufferExec C plusOne grows (.next control) b =
      if g.rest = [] then (b, .noLine)
      else ({ b with pos := g.skipLine.pos }, copiedLine (lineNumber plusOne control) (lineOf g.rest)) := by
    rw [bufferExec_open h.closed _ (by simp)]
    simp only [bufferNext, rest_eq_nil_iff h.bytes h.pos, htake, hbehind]
  have hfile := @fileExec_next C plusOne g control
  rw [fileNext_eq] at hfile
  have href : referenceExec plusOne (.next control) (some g) =
      if g.rest = [] then (some g, .noLine)
      else (some g.skipLine, .line (lineNumber plusOne control) (lineOf g.rest)) := rfl
  by_cases hnil : g.rest = []
  · rw [if_pos hnil] at hbuf hfile href
    rw [stepRight_iff hbuf hfile href, hnil]
    exact ⟨fun _ => by decide, fun _ => ⟨rfl, rfl, h.view, rfl⟩⟩
  · rw [if_neg hnil] at hbuf hfile href
    rw [stepRight_iff hbuf hfile href, h.view_pos]
    exact ⟨fun hs => copiedLine_eq_iff.mp hs.1,
      fun hs => ⟨copiedLine_eq_iff.mpr hs, copiedLine_eq_iff.mpr hs, rfl, rfl⟩⟩

theorem exactCount_lt {x : Double} {n : Nat} (h : Stream.exactCount x = some n) : n < 2 ^ 31 := by
  unfold Stream.exactCount at h
  split at h
  next hx =>
    cases h
    have := hx.2.2
    omega
  next => cases h

/-- `read` of a number of bytes is right. -/
theorem step_readN {b : BufferData} {g : Stream} (h : Shows b g) (x : Double) :
    StepRight C plusOne grows (.readN x) b (some g) (some g) := by
  have hbuf : bufferExec C plusOne grows (.readN x) b = bufferReadN C b x := bufferExec_open h.closed _ (by simp)
  rw [bufferReadN_eq h.bytes h.pos] at hbuf
  have hfile := @fileExec_readN C plusOne g x
  rw [fileReadN_eq] at hfile
  have href : referenceExec plusOne (.readN x) (some g) = g.readN x := rfl
  unfold Stream.readN at href
  cases hcount : Stream.exactCount x with
  | none =>
    rw [hcount] at hbuf hfile href
    exact (stepRight_iff hbuf hfile href).mpr ⟨rfl, rfl, h.view, rfl⟩
  | some n =>
    have hn := exactCount_lt hcount
    rw [hcount] at hbuf hfile href
    cases n with
    | zero => exact (stepRight_iff hbuf hfile href).mpr ⟨rfl, rfl, h.view, rfl⟩
    | succ n =>
      have hshort : (g.rest.take (n + 1)).length < 2 ^ 31 := by
        rw [List.length_take]
        omega
      by_cases hnil : g.rest = []
      · simp only [if_pos hnil] at hbuf hfile href
        exact (stepRight_iff hbuf hfile href).mpr ⟨rfl, rfl, h.view, rfl⟩
      · simp only [if_neg hnil] at hbuf hfile href
        refine (stepRight_iff hbuf hfile href).mpr ⟨copied_eq_iff.mpr hshort, copied_eq_iff.mpr hshort, ?_, rfl⟩
        rw [h.view_pos]
        rfl

theorem step_tell {b : BufferData} {g : Stream} (h : Shows b g) :
    StepRight C plusOne grows .tell b (some g) (some g) := by
  have hbuf : bufferExec C plusOne grows .tell b = (b, .number (Double.ofUint64 b.pos)) :=
    bufferExec_open h.closed _ (by simp)
  have hfile : fileExec C plusOne .tell (some g) = (some g, .number (Double.ofInt64 g.pos)) := rfl
  have href : referenceExec plusOne .tell (some g) = (some g, .number (Double.ofUint64 g.pos)) := rfl
  refine (stepRight_iff hbuf hfile href).mpr ⟨?_, ?_, h.view, rfl⟩
  · rw [h.pos]
  · rw [ofInt64_natCast]

theorem step_close (b : BufferData) (r : Option Stream) : StepRight C plusOne grows .close b r r := by
  have hbuf : bufferExec C plusOne grows .close b = ({ b with closed := true, pos := 0 }, .ok) := rfl
  cases r with
  | none => exact (stepRight_iff hbuf rfl rfl).mpr ⟨rfl, rfl, rfl, rfl⟩
  | some g => exact (stepRight_iff hbuf rfl rfl).mpr ⟨rfl, rfl, rfl, rfl⟩

/-- What is closed stays so. -/
theorem step_closed {b : BufferData} (h : b.view = none) (op : Op) : StepRight C plusOne grows op b none none := by
  have hc : b.closed = true := by
    unfold BufferData.view at h
    split at h
    · assumption
    · cases h
  cases op with
  | close => exact step_close b none
  | write | read | readN | readline | next | seek | tell =>
    refine (stepRight_iff ?_ rfl rfl).mpr ⟨rfl, rfl, h, rfl⟩
    unfold bufferExec
    rw [hc]
    rfl

/-! Writing. -/

theorem ensureCapacity_cases (b : BufferData) (needed : Nat) (h : needed < 2 ^ 64) :
    (∃ cap, b.ensureCapacity grows needed = some { b with cap := cap } ∧ needed ≤ cap ∧ b.cap ≤ cap ∧
      (cap = b.cap ∨ grows cap = true) ∧ (needed ≤ b.cap ∨ grows (newCapacity b.cap needed) = true)) ∨
    (b.ensureCapacity grows needed = none ∧ ¬ needed ≤ b.cap ∧ grows (newCapacity b.cap needed) = false) := by
  unfold BufferData.ensureCapacity
  by_cases hle : needed ≤ b.cap
  · exact Or.inl ⟨b.cap, if_pos hle, hle, Nat.le_refl _, Or.inl rfl, Or.inl hle⟩
  · rw [if_neg hle]
    have hge := @newCapacity_ge b.cap needed h
    by_cases hgrows : grows (newCapacity b.cap needed) = true
    · exact Or.inl ⟨_, if_pos hgrows, hge, by omega, Or.inr hgrows, Or.inr hgrows⟩
    · exact Or.inr ⟨if_neg hgrows, hle, Bool.eq_false_iff.mpr hgrows⟩

theorem overwrite_eq (data : Bytes) (pos : Nat) (s : Bytes) :
    (if pos > data.length then data ++ List.replicate (pos - data.length) 0 else data).take pos ++ s ++
      (if pos > data.length then data ++ List.replicate (pos - data.length) 0 else data).drop (pos + s.length) =
      overwrite data pos s := by
  unfold overwrite
  split
  next hgap =>
    have hlen : (data ++ List.replicate (pos - data.length) (0 : UInt8)).length = pos := by
      rw [List.length_append, List.length_replicate]
      omega
    have hdata : data.drop (pos + s.length) = [] := List.drop_eq_nil_of_le (by omega)
    have hall : (data ++ List.replicate (pos - data.length) (0 : UInt8)).drop (pos + s.length) = [] :=
      List.drop_eq_nil_of_le (by omega)
    rw [hdata, hall]
  next hgap =>
    have hzero : pos - data.length = 0 := by omega
    rw [hzero, List.replicate_zero, List.append_nil]

theorem bufferWrite_eq {b : BufferData} {g : Stream} (h : Shows b g) {s : Bytes} (hs : s ≠ [])
    (hlt : g.writePos + s.length < 2 ^ 64) :
    (∃ cap, bufferWrite grows b s =
        ({ b with cap := cap, data := overwrite g.bytes g.writePos s, pos := g.writePos + s.length }, .self) ∧
      g.writePos + s.length ≤ cap ∧ b.cap ≤ cap ∧ (cap = b.cap ∨ grows cap = true) ∧
      (g.writePos + s.length ≤ b.cap ∨ grows (newCapacity b.cap (g.writePos + s.length)) = true)) ∨
    (bufferWrite grows b s = ({ b with pos := g.writePos }, .error "Out of memory in file.write().") ∧
      ¬ g.writePos + s.length ≤ b.cap ∧ grows (newCapacity b.cap (g.writePos + s.length)) = false) := by
  have hstart : (if b.appendMode then { b with pos := b.data.length } else b) = { b with pos := g.writePos } := by
    unfold Stream.writePos
    by_cases happ : g.append = true
    · rw [if_pos (h.append.trans happ), if_pos happ, h.bytes]
    · rw [if_neg fun hb => happ (h.append.symm.trans hb), if_neg happ, ← h.pos]
  have hlength : s.length ≠ 0 := fun h0 => hs (List.eq_nil_of_length_eq_zero h0)
  have hmod := Nat.mod_eq_of_lt hlt
  unfold bufferWrite
  rw [if_neg hlength, hstart]
  dsimp only
  rw [hmod]
  rcases @ensureCapacity_cases grows { b with pos := g.writePos } _ hlt with
    ⟨cap, hsome, hroom, hmore, hcap, hclear⟩ | ⟨hnone, hroom, hgrows⟩
  · refine Or.inl ⟨cap, ?_, hroom, hmore, hcap, hclear⟩
    rw [hsome]
    dsimp only
    rw [if_pos hroom, overwrite_eq, h.bytes]
  · refine Or.inr ⟨?_, hroom, hgrows⟩
    rw [hnone]

theorem beforeZero_eq {s : Bytes} (h : 0 ∉ s) : beforeZero s = s :=
  List.takeWhile_eq_self_iff.mpr fun _ hc => decide_eq_true fun h0 => h (h0 ▸ hc)

/-- A write is right where it has no zero byte and finds room. -/
theorem step_write {b : BufferData} {g : Stream} (h : Agree b (some g) (some g)) {s : Bytes}
    (hs : s.length < 2 ^ 31) (hgrows : ∀ n, grows n = true → n < 2 ^ 63) :
    StepRight C plusOne grows (.write s) b (some g) (some g) ↔ (Op.write s).Clear grows b g := by
  have hshow := Shows.of_view h.buffer
  have hbuf : bufferExec C plusOne grows (.write s) b = bufferWrite grows b s :=
    bufferExec_open hshow.closed _ (by simp)
  have hfile : fileExec C plusOne (.write s) (some g) = (some (fputs g s), .self) := rfl
  have href : referenceExec plusOne (.write s) (some g) = (some (g.write s), .self) := rfl
  change _ ↔ 0 ∉ s ∧ (s = [] ∨ g.writePos + s.length ≤ b.cap ∨
    grows (newCapacity b.cap (g.writePos + s.length)) = true)
  by_cases hnil : s = []
  · have hsame : fputs g s = g := by
      rw [hnil, fputs]
      exact ite_self g
    rw [hnil] at hbuf hfile href ⊢
    refine ⟨fun _ => ⟨by simp, Or.inl rfl⟩, fun _ => ?_⟩
    refine (stepRight_iff hbuf hfile href).mpr ⟨rfl, rfl, hshow.view, ?_⟩
    rw [← hnil, hsame, hnil]
    rfl
  · have hpos : g.writePos < 2 ^ 63 := by
      have hdata := h.room
      have hcap := h.capacity
      have hat := h.position
      rw [hshow.bytes] at hdata
      rw [hshow.pos] at hat
      rcases g.writePos_cases with hw | hw <;> omega
    have hwrite : g.write s = { g with bytes := overwrite g.bytes g.writePos s, pos := g.writePos + s.length } :=
      if_neg hnil
    rcases @bufferWrite_eq grows _ _ hshow _ hnil (by omega) with
      ⟨cap, heq, hroom, -, hcap, hclear⟩ | ⟨heq, hroom, hno⟩
    · rw [heq] at hbuf
      rw [stepRight_iff hbuf hfile href]
      have hlt : g.writePos + s.length < 2 ^ 63 := by
        rcases hcap with hcap | hcap
        · have := h.capacity
          omega
        · have := hgrows cap hcap
          omega
      constructor
      · intro hright
        refine ⟨fun h0 => ?_, Or.inr hclear⟩
        exact fputs_ne h0 (Option.some.inj hright.2.2.2)
      · intro hzero
        refine ⟨rfl, rfl, ?_, ?_⟩
        · rw [hwrite]
          exact hshow.view_written _ _ _
        · unfold fputs
          rw [beforeZero_eq hzero.1, if_pos hlt]
    · rw [heq] at hbuf
      rw [stepRight_iff hbuf hfile href]
      constructor
      · intro hright
        exact Result.noConfusion hright.1
      · intro hclear
        rcases hclear.2 with h0 | h0 | h0
        · exact absurd h0 hnil
        · exact absurd h0 hroom
        · rw [hno] at h0
          exact Bool.noConfusion h0

/-! Seeking. -/

theorem bmod_small {n : Nat} (h : n < 2 ^ 63) : (n : Int).bmod (2 ^ 64) = n :=
  Int.bmod_eq_of_le (by omega) (by omega)

/-- A buffer seeks the position that the base and the offset give. -/
theorem bufferSeek_eq {b : BufferData} {g : Stream} (h : Agree b (some g) (some g)) (args : SeekArgs) {w : Whence}
    {i : Int} (hargs : parseSeekArgs C args = .ok (w, i)) (hlow : -2 ^ 63 ≤ i) :
    bufferSeek C b args =
      if 2 ^ 63 ≤ (g.base w : Int) + i then (b, .undefined)
      else if (g.base w : Int) + i < 0 then (b, .nil)
      else ({ b with pos := (g.base w + i).toNat }, .number (Double.ofUint64 (g.base w + i).toNat)) := by
  have hshow := Shows.of_view h.buffer
  have hcap := h.capacity
  have hdata := h.room
  have hpos := bmod_small h.position
  have hend := bmod_small (n := b.data.length) (by omega)
  have hbase : b.base w = (g.base w : Int) := by
    cases w with
    | set => rfl
    | cur => exact hpos.trans (by rw [hshow.pos]; rfl)
    | «end» => exact hend.trans (by rw [hshow.bytes]; rfl)
  unfold bufferSeek
  rw [hargs]
  dsimp only
  rw [hbase]
  unfold longLong
  by_cases hover : 2 ^ 63 ≤ (g.base w : Int) + i
  · rw [if_neg (by omega), if_pos hover]
  · rw [if_pos (by omega), if_neg hover]

theorem fileSeek_eq (g : Stream) (args : SeekArgs) {w : Whence} {i : Int}
    (hargs : parseSeekArgs C args = .ok (w, i)) :
    fileSeek C g args =
      if 0 ≤ (g.base w : Int) + i ∧ (g.base w : Int) + i < 2 ^ 63 then
        ({ g with pos := (g.base w + i).toNat }, .number (Double.ofUint64 (g.base w + i).toNat))
      else (g, .nil) := by
  unfold fileSeek fseek
  rw [hargs]
  by_cases hin : 0 ≤ (g.base w : Int) + i ∧ (g.base w : Int) + i < 2 ^ 63
  · simp only [if_pos hin]
    rw [ofInt64_natCast]
  · simp only [if_neg hin]

/-- A seek is right where the position is below 2 to the power of 63. -/
theorem step_seek {b : BufferData} {g : Stream} (h : Agree b (some g) (some g)) (args : SeekArgs) :
    StepRight C plusOne grows (.seek args) b (some g) (some g) ↔ (Op.seek args).Clear grows b g := by
  have hshow := Shows.of_view h.buffer
  have hbuf : bufferExec C plusOne grows (.seek args) b = bufferSeek C b args :=
    bufferExec_open hshow.closed _ (by simp)
  have hfile := @fileExec_seek C plusOne g args
  have href : referenceExec plusOne (.seek args) (some g) = g.seek args := rfl
  unfold Stream.seek at href
  change _ ↔ ∀ w i, Stream.exactSeekArgs args = .ok (w, i) → (g.base w : Int) + i < 2 ^ 63
  rcases parseSeekArgs_cases (C := C) args with ⟨e, hexact, hparse⟩ | ⟨w, i, hi, hexact, hparse⟩ | ⟨w, hexact, hparse⟩
  · have hbufe : bufferSeek C b args = (b, .error e) := by
      unfold bufferSeek
      rw [hparse]
    have hfilee : fileSeek C g args = (g, .error e) := by
      unfold fileSeek
      rw [hparse]
    rw [hbufe] at hbuf
    rw [hfilee] at hfile
    rw [hexact] at href ⊢
    rw [stepRight_iff hbuf hfile href]
    refine ⟨fun _ w i he => ?_, fun _ => ⟨rfl, rfl, hshow.view, rfl⟩⟩
    cases he
  · rw [bufferSeek_eq h args hparse hi.1] at hbuf
    rw [fileSeek_eq g args hparse] at hfile
    rw [hexact] at href ⊢
    dsimp only at href
    by_cases hneg : (g.base w : Int) + i < 0
    · rw [if_neg (by omega), if_pos hneg] at hbuf
      rw [if_neg (by omega)] at hfile
      rw [if_pos hneg] at href
      rw [stepRight_iff hbuf hfile href]
      refine ⟨fun _ w' i' he => ?_, fun _ => ⟨rfl, rfl, hshow.view, rfl⟩⟩
      cases he
      omega
    · rw [if_neg hneg] at href
      by_cases hover : 2 ^ 63 ≤ (g.base w : Int) + i
      · rw [if_pos hover] at hbuf
        rw [stepRight_iff hbuf hfile href]
        refine ⟨fun hright => Result.noConfusion hright.1, fun hclear => ?_⟩
        have := hclear w i rfl
        omega
      · rw [if_neg hover, if_neg hneg] at hbuf
        rw [if_pos (by omega)] at hfile
        rw [stepRight_iff hbuf hfile href]
        refine ⟨fun _ w' i' he => ?_, fun _ => ⟨rfl, rfl, hshow.view_pos _, rfl⟩⟩
        cases he
        omega
  · rw [hexact] at href ⊢
    dsimp only at href
    rw [if_neg (by omega)] at href
    constructor
    · intro hright
      exfalso
      cases hargs : parseSeekArgs C args with
      | error e =>
        have hbufe : bufferSeek C b args = (b, .error e) := by
          unfold bufferSeek
          rw [hargs]
        rw [hbufe] at hbuf
        exact Result.noConfusion ((stepRight_iff hbuf hfile href).mp hright).1
      | ok wi =>
        obtain ⟨w', i⟩ := wi
        obtain ⟨rfl, hlow, hhigh⟩ := hparse w' i hargs
        rw [bufferSeek_eq h args hargs hlow] at hbuf
        by_cases hover : 2 ^ 63 ≤ (g.base w' : Int) + i
        · rw [if_pos hover] at hbuf
          exact Result.noConfusion ((stepRight_iff hbuf hfile href).mp hright).1
        · rw [if_neg hover] at hbuf
          by_cases hneg : (g.base w' : Int) + i < 0
          · rw [if_pos hneg] at hbuf
            exact Result.noConfusion ((stepRight_iff hbuf hfile href).mp hright).1
          · rw [if_neg hneg] at hbuf
            have hview := ((stepRight_iff hbuf hfile href).mp hright).2.2.1
            rw [hshow.view_pos] at hview
            have hp : ((g.base w' : Int) + i).toNat = ((g.base w' : Int) + 2 ^ 63).toNat :=
              congrArg Stream.pos (Option.some.inj hview)
            omega
    · intro hclear
      have := hclear w (2 ^ 63) rfl
      omega

/-! Runs. -/

theorem step_right_iff {b : BufferData} {f r : Option Stream} (h : Agree b f r) {op : Op} (hop : op.Valid)
    (hgrows : ∀ n, grows n = true → n < 2 ^ 63) :
    StepRight C plusOne grows op b f r ↔ ∀ g, r = some g → op.Clear grows b g := by
  have hfile := h.file
  subst hfile
  cases f with
  | none =>
    refine ⟨fun _ g hg => ?_, fun _ => step_closed h.buffer op⟩
    cases hg
  | some g =>
    have hshow := Shows.of_view h.buffer
    have hsome : (∀ g', some g = some g' → op.Clear grows b g') ↔ op.Clear grows b g := by
      refine ⟨fun hclear => hclear g rfl, fun hclear g' hg => ?_⟩
      cases hg
      exact hclear
    rw [hsome]
    cases op with
    | write s => exact step_write h hop hgrows
    | read => exact step_read hshow
    | readN x => exact ⟨fun _ => trivial, fun _ => step_readN hshow x⟩
    | readline => exact step_readline hshow
    | next control => exact step_next hshow control
    | seek args => exact step_seek h args
    | tell => exact ⟨fun _ => trivial, fun _ => step_tell hshow⟩
    | close => exact ⟨fun _ => trivial, fun _ => step_close b _⟩

theorem Sound.setPos {b : BufferData} (h : b.Sound) {p : Nat} (hp : p < 2 ^ 63) :
    BufferData.Sound { b with pos := p } :=
  ⟨h.room, h.capacity, hp⟩

theorem skipLine_pos_le {f : Stream} (h : f.rest ≠ []) : f.skipLine.pos ≤ f.bytes.length := by
  have hlen : f.rest.length = f.bytes.length - f.pos := List.length_drop
  have hpositive := List.length_pos_iff.mpr h
  have hline := lineOf_length_le f.rest
  unfold Stream.skipLine Stream.advance
  dsimp only
  split <;> omega

theorem bufferWrite_sound {b : BufferData} (h : b.Sound) (hc : b.closed = false) {s : Bytes} (hs : s.length < 2 ^ 31)
    (hgrows : ∀ n, grows n = true → n < 2 ^ 63) : (bufferWrite grows b s).1.Sound := by
  by_cases hnil : s = []
  · rw [hnil]
    exact h
  · have hshow : Shows b ⟨b.data, b.pos, b.appendMode⟩ := ⟨hc, rfl, rfl, rfl⟩
    obtain ⟨hroom, hcap, hpos⟩ := h
    have hat : Stream.writePos ⟨b.data, b.pos, b.appendMode⟩ < 2 ^ 63 := by
      rcases Stream.writePos_cases ⟨b.data, b.pos, b.appendMode⟩ with hw | hw
      · rw [hw]
        exact lt_of_le_of_lt hroom hcap
      · rw [hw]
        exact hpos
    rcases @bufferWrite_eq grows _ _ hshow _ hnil (by omega) with
      ⟨cap, heq, hfits, hmore, hgrown, -⟩ | ⟨heq, -, -⟩
    · rw [heq]
      have hlt : cap < 2 ^ 63 := by
        rcases hgrown with hsame | hnew
        · omega
        · exact hgrows cap hnew
      refine ⟨?_, hlt, lt_of_le_of_lt hfits hlt⟩
      rw [length_overwrite]
      exact Nat.max_le.mpr ⟨le_trans hroom hmore, hfits⟩
    · rw [heq]
      exact ⟨hroom, hcap, hat⟩

theorem bufferRead_sound {b : BufferData} (h : b.Sound) : (bufferRead b).1.Sound := by
  unfold bufferRead
  split
  · exact h
  · exact Sound.setPos h (lt_of_le_of_lt h.room h.capacity)

theorem bufferReadN_sound {b : BufferData} (h : b.Sound) (x : Double) : (bufferReadN C b x).1.Sound := by
  have hroom := h.room
  have hcap := h.capacity
  unfold bufferReadN
  cases readCount C x with
  | none => exact h
  | some n =>
    dsimp only
    split
    next => exact h
    next =>
      split
      next => exact h
      next hrest =>
        refine Sound.setPos h ?_
        split <;> omega

/-- A line that is read ends in the buffer. -/
theorem behindBreak_lt {b : BufferData} (h : b.Sound) (hrest : ¬ b.pos ≥ b.data.length) :
    behindBreak b.data (b.pos + scanLine b.rest) < 2 ^ 63 := by
  obtain ⟨-, hbehind⟩ := bufferLine_eq (b := b) (f := ⟨b.data, b.pos, b.appendMode⟩) rfl rfl
  rw [rest_eq_nil_iff (f := ⟨b.data, b.pos, b.appendMode⟩) rfl rfl] at hrest
  rw [hbehind]
  exact lt_of_le_of_lt (skipLine_pos_le hrest) (lt_of_le_of_lt h.room h.capacity)

theorem bufferReadline_sound {b : BufferData} (h : b.Sound) : (bufferReadline b).1.Sound := by
  unfold bufferReadline
  split
  next => exact h
  next hrest => exact Sound.setPos h (behindBreak_lt h hrest)

theorem bufferNext_sound {b : BufferData} (h : b.Sound) (control : Option Double) :
    (bufferNext plusOne b control).1.Sound := by
  unfold bufferNext
  split
  next => exact h
  next hrest => exact Sound.setPos h (behindBreak_lt h hrest)

theorem bufferSeek_sound {b : BufferData} (h : b.Sound) (args : SeekArgs) : (bufferSeek C b args).1.Sound := by
  unfold bufferSeek longLong
  cases parseSeekArgs C args with
  | error e => exact h
  | ok wi =>
    obtain ⟨w, i⟩ := wi
    dsimp only
    by_cases hin : -2 ^ 63 ≤ b.base w + i ∧ b.base w + i < 2 ^ 63
    · rw [if_pos hin]
      dsimp only
      split
      · exact h
      · exact Sound.setPos h (by omega)
    · rw [if_neg hin]
      exact h

/-- Every operation of a buffer keeps to its memory. -/
theorem bufferExec_sound {b : BufferData} (h : b.Sound) {op : Op} (hop : op.Valid)
    (hgrows : ∀ n, grows n = true → n < 2 ^ 63) : (bufferExec C plusOne grows op b).1.Sound := by
  have hclose : BufferData.Sound { b with closed := true, pos := 0 } := ⟨h.room, h.capacity, Nat.two_pow_pos 63⟩
  by_cases hc : b.closed = true
  · cases op with
    | close => exact hclose
    | write | read | readN | readline | next | seek | tell =>
      unfold bufferExec
      rw [hc]
      exact h
  · have hopen : b.closed = false := Bool.eq_false_iff.mpr hc
    cases op with
    | close => exact hclose
    | write s =>
      rw [bufferExec_open hopen _ (by simp)]
      exact bufferWrite_sound h hopen hop hgrows
    | read =>
      rw [bufferExec_open hopen _ (by simp)]
      exact bufferRead_sound h
    | readN x =>
      rw [bufferExec_open hopen _ (by simp)]
      exact bufferReadN_sound h x
    | readline =>
      rw [bufferExec_open hopen _ (by simp)]
      exact bufferReadline_sound h
    | next control =>
      rw [bufferExec_open hopen _ (by simp)]
      exact bufferNext_sound h control
    | seek args =>
      rw [bufferExec_open hopen _ (by simp)]
      exact bufferSeek_sound h args
    | tell =>
      rw [bufferExec_open hopen _ (by simp)]
      exact h

theorem Agree.step {b : BufferData} {f r : Option Stream} (h : Agree b f r) {op : Op} (hop : op.Valid)
    (hgrows : ∀ n, grows n = true → n < 2 ^ 63) (hright : StepRight C plusOne grows op b f r) :
    Agree (bufferExec C plusOne grows op b).1 (fileExec C plusOne op f).1 (referenceExec plusOne op r).1 :=
  ⟨bufferExec_sound h.toSound hop hgrows, hright.bufferAfter, hright.fileAfter⟩

theorem run_right_iff {ops : List Op} {b : BufferData} {f r : Option Stream} (h : Agree b f r)
    (hops : ∀ op ∈ ops, op.Valid) (hgrows : ∀ n, grows n = true → n < 2 ^ 63) :
    RunRight C plusOne grows ops b f r ↔ RunClear C plusOne grows ops b r := by
  induction ops generalizing b f r with
  | nil => exact Iff.rfl
  | cons op ops ih =>
    have hop := hops op List.mem_cons_self
    have hrest : ∀ op ∈ ops, op.Valid := fun op' hmem => hops op' (List.mem_cons_of_mem _ hmem)
    have hstep := @step_right_iff C plusOne grows b f r h op hop hgrows
    constructor
    · intro hrun
      exact ⟨hstep.mp hrun.1, (ih (h.step hop hgrows hrun.1) hrest).mp hrun.2⟩
    · intro hrun
      have hright := hstep.mpr hrun.1
      exact ⟨hright, (ih (h.step hop hgrows hright) hrest).mpr hrun.2⟩

theorem results_of_right {ops : List Op} {b : BufferData} {f r : Option Stream}
    (h : RunRight C plusOne grows ops b f r) :
    results (bufferExec C plusOne grows) ops b = results (referenceExec plusOne) ops r ∧
      results (fileExec C plusOne) ops f = results (referenceExec plusOne) ops r := by
  induction ops generalizing b f r with
  | nil => exact ⟨rfl, rfl⟩
  | cons op ops ih =>
    obtain ⟨hb, hf⟩ := ih h.2
    unfold results
    rw [hb, hf, h.1.buffer, h.1.file]
    exact ⟨rfl, rfl⟩

/-- What `io.buffer` makes stands for the bytes that it is given. -/
theorem ioBuffer_agrees {initial mode : Bytes} {m : Mode} {b : BufferData}
    (hopen : ioBuffer grows initial mode = .ok b) (hmode : parseBufferMode mode = some m)
    (hgrows : ∀ n, grows n = true → n < 2 ^ 63) (hlen : initial.length < 2 ^ 31) :
    Agree b (some (opened initial m)) (some (opened initial m)) := by
  unfold ioBuffer at hopen
  rw [hmode] at hopen
  dsimp only at hopen
  have hempty : BufferData.Sound ⟨[], 0, 0, decide (m = .a), false⟩ :=
    ⟨Nat.le_refl _, Nat.two_pow_pos 63, Nat.two_pow_pos 63⟩
  by_cases hfull : m ≠ .w ∧ 0 < initial.length
  · rw [if_pos hfull] at hopen
    rcases @ensureCapacity_cases grows ⟨[], 0, 0, decide (m = .a), false⟩ initial.length (by omega) with
      ⟨cap, hsome, hroom, -, hcap, -⟩ | ⟨hnone, -, -⟩
    · rw [hsome] at hopen
      cases hopen
      have hcap' : cap < 2 ^ 63 := by
        rcases hcap with hcap | hcap
        · rw [hcap]
          exact Nat.two_pow_pos 63
        · exact hgrows cap hcap
      refine ⟨⟨hroom, hcap', ?_⟩, ?_, rfl⟩
      · dsimp only
        split <;> omega
      · cases m with
        | r => rfl
        | w => exact absurd rfl hfull.1
        | a => rfl
    · rw [hnone] at hopen
      cases hopen
  · rw [if_neg hfull] at hopen
    cases hopen
    refine ⟨hempty, ?_, rfl⟩
    cases m with
    | w => rfl
    | r =>
      have hnil : initial = [] := List.eq_nil_of_length_eq_zero (by simpa using hfull)
      rw [hnil]
      rfl
    | a =>
      have hnil : initial = [] := List.eq_nil_of_length_eq_zero (by simpa using hfull)
      rw [hnil]
      rfl

theorem fopen_eq {start : Nat} {initial : Bytes} {m : Mode} (h : m = .a → start = initial.length) :
    fopen start initial m = opened initial m := by
  cases m with
  | a => rw [h rfl]; rfl
  | r => rfl
  | w => rfl

end

/-- The memory that there is for the examples. -/
def someMemory (n : Nat) : Bool := n < 1024

theorem someMemory_lt (n : Nat) (h : someMemory n = true) : n < 2 ^ 63 := by
  have : n < 1024 := of_decide_eq_true h
  omega

theorem stateAfter_sound {C : Conversions} {plusOne : Double → Double} {grows : Nat → Bool} {ops : List Op}
    {b : BufferData} (h : b.Sound) (hops : ∀ op ∈ ops, op.Valid) (hgrows : ∀ n, grows n = true → n < 2 ^ 63) :
    (stateAfter (bufferExec C plusOne grows) ops b).Sound := by
  induction ops generalizing b with
  | nil => exact h
  | cons op ops ih =>
    have hop := hops op List.mem_cons_self
    exact ih (bufferExec_sound h hop hgrows) fun op' hmem => hops op' (List.mem_cons_of_mem _ hmem)

/-- What is written to a buffer that keeps to its memory is within the memory that it asks for. -/
theorem write_defined {C : Conversions} {plusOne : Double → Double} {grows : Nat → Bool} {b : BufferData}
    (h : b.Sound) {s : Bytes} (hs : s.length < 2 ^ 31) :
    (bufferExec C plusOne grows (.write s) b).2 ≠ .undefined := by
  by_cases hc : b.closed = true
  · unfold bufferExec
    rw [hc]
    exact fun he => Result.noConfusion he
  · have hopen : b.closed = false := Bool.eq_false_iff.mpr hc
    have hshow : Shows b ⟨b.data, b.pos, b.appendMode⟩ := ⟨hopen, rfl, rfl, rfl⟩
    rw [bufferExec_open hopen _ (by simp)]
    dsimp only
    by_cases hnil : s = []
    · rw [hnil]
      exact fun he => Result.noConfusion he
    · have hroom := h.room
      have hcap := h.capacity
      have hpos := h.position
      have hat : Stream.writePos ⟨b.data, b.pos, b.appendMode⟩ < 2 ^ 63 := by
        rcases Stream.writePos_cases ⟨b.data, b.pos, b.appendMode⟩ with hw | hw
        · rw [hw]
          exact lt_of_le_of_lt hroom hcap
        · rw [hw]
          exact hpos
      rcases @bufferWrite_eq grows _ _ hshow _ hnil (by omega) with ⟨cap, heq, -⟩ | ⟨heq, -⟩
      · rw [heq]
        exact fun he => Result.noConfusion he
      · rw [heq]
        exact fun he => Result.noConfusion he

/-- Whatever is done with a buffer, its bytes are in its memory and a write does not leave it. -/
theorem buffer_keeps_to_memory (C : Conversions) (plusOne : Double → Double) {grows : Nat → Bool}
    (hgrows : ∀ n, grows n = true → n < 2 ^ 63) {initial mode : Bytes} (hlen : initial.length < 2 ^ 31)
    {b : BufferData} (hopen : ioBuffer grows initial mode = .ok b) {ops : List Op} (hops : ∀ op ∈ ops, op.Valid) :
    (stateAfter (bufferExec C plusOne grows) ops b).Sound ∧
      ∀ s : Bytes, s.length < 2 ^ 31 → (bufferExec C plusOne grows (.write s)
        (stateAfter (bufferExec C plusOne grows) ops b)).2 ≠ .undefined := by
  have hb : b.Sound := by
    cases hmode : parseBufferMode mode with
    | none =>
      unfold ioBuffer at hopen
      rw [hmode] at hopen
      cases hopen
    | some m => exact (ioBuffer_agrees hopen hmode hgrows hlen).toSound
  have hafter := @stateAfter_sound C plusOne grows ops b hb hops hgrows
  exact ⟨hafter, fun s hs => write_defined hafter hs⟩

theorem buffer_keeps_to_memory_gap :
    (stateAfter (bufferExec ⟨fun _ => 0, fun _ => 0, fun _ => 0⟩ id someMemory)
      [.seek (.both (ascii "end") 0x4059000000000000), .write [97]] ⟨[98], 32, 0, false, false⟩).Sound := by
  refine (@buffer_keeps_to_memory ⟨fun _ => 0, fun _ => 0, fun _ => 0⟩ id someMemory someMemory_lt [98] (ascii "r")
    (by decide) _ rfl _ ?_).1
  intro op hop
  simp only [List.mem_cons, List.not_mem_nil, or_false] at hop
  obtain rfl | rfl := hop
  · trivial
  · exact (by decide : [(97 : UInt8)].length < 2 ^ 31)

/-- A run on a buffer and the same run on a file are those of the bytes that both stand for just when all that is
written has no zero byte and finds room, no line and no rest that is read is longer than an `int`, and no position is
sought that a `long` cannot be. -/
theorem buffer_file_right_iff (C : Conversions) (plusOne : Double → Double) {grows : Nat → Bool}
    (hgrows : ∀ n, grows n = true → n < 2 ^ 63) {initial mode : Bytes} (hlen : initial.length < 2 ^ 31) {m : Mode}
    (hmode : parseBufferMode mode = some m) {b : BufferData} (hopen : ioBuffer grows initial mode = .ok b)
    {start : Nat} (hstart : m = .a → start = initial.length) {ops : List Op} (hops : ∀ op ∈ ops, op.Valid) :
    (RunRight C plusOne grows ops b (some (fopen start initial m)) (some (opened initial m)) ↔
      RunClear C plusOne grows ops b (some (opened initial m))) ∧
    (RunClear C plusOne grows ops b (some (opened initial m)) →
      results (bufferExec C plusOne grows) ops b = results (referenceExec plusOne) ops (some (opened initial m)) ∧
      results (fileExec C plusOne) ops (some (fopen start initial m)) =
        results (referenceExec plusOne) ops (some (opened initial m))) := by
  have hiff := @run_right_iff C plusOne grows ops _ _ _ (ioBuffer_agrees hopen hmode hgrows hlen) hops hgrows
  rw [fopen_eq hstart]
  exact ⟨hiff, fun hclear => results_of_right (hiff.mpr hclear)⟩

theorem buffer_file_right_iff_abc :
    results (bufferExec ⟨fun _ => 0, fun _ => 0, fun _ => 0⟩ id someMemory)
      [.write (ascii "ab\nc"), .seek .none, .readline, .read] ⟨[], 0, 0, false, false⟩ =
      results (referenceExec id) [.write (ascii "ab\nc"), .seek .none, .readline, .read] (some ⟨[], 0, false⟩) ∧
    results (fileExec ⟨fun _ => 0, fun _ => 0, fun _ => 0⟩ id)
      [.write (ascii "ab\nc"), .seek .none, .readline, .read] (some ⟨[], 0, false⟩) =
      results (referenceExec id) [.write (ascii "ab\nc"), .seek .none, .readline, .read] (some ⟨[], 0, false⟩) := by
  refine (@buffer_file_right_iff ⟨fun _ => 0, fun _ => 0, fun _ => 0⟩ id someMemory someMemory_lt [] (ascii "w")
    (by decide) .w rfl _ rfl 0 (fun _ => rfl) _ ?_).2 ?_
  · intro op hop
    simp only [List.mem_cons, List.not_mem_nil, or_false] at hop
    obtain rfl | rfl | rfl | rfl := hop
    · exact (by decide : (ascii "ab\nc").length < 2 ^ 31)
    all_goals trivial
  · refine ⟨fun g hg => ?_, fun g hg => ?_, fun g hg => ?_, fun g hg => ?_, trivial⟩
    · cases hg
      exact ⟨by decide, Or.inr (Or.inr (by decide))⟩
    · intro w i h
      cases hg
      cases h
      decide
    · cases hg
      exact (by decide : (lineOf (ascii "ab\nc")).length < 2 ^ 31)
    · cases hg
      exact (by decide : (ascii "c").length < 2 ^ 31)

/-- What is behind a zero byte is in the buffer and not in the file, and the position of a buffer overflows. -/
theorem zero_byte_cuts :
    results (bufferExec ⟨fun _ => 0, fun _ => 0, fun _ => 0⟩ id someMemory) [.write [97, 0, 98], .tell]
      ⟨[], 0, 0, false, false⟩ = [.self, .number (Double.ofUint64 3)] ∧
    results (referenceExec id) [.write [97, 0, 98], .tell] (some (opened [] .w)) =
      [.self, .number (Double.ofUint64 3)] ∧
    results (fileExec ⟨fun _ => 0, fun _ => 0, fun _ => 0⟩ id) [.write [97, 0, 98], .tell] (some (fopen 0 [] .w)) =
      [.self, .number (Double.ofInt64 1)] ∧
    Double.ofUint64 3 ≠ Double.ofInt64 1 ∧
    results (bufferExec ⟨fun _ => 0, fun _ => 0, fun _ => 0⟩ id someMemory)
      [.seek (.offset 0x43DFFFFFFFFFFFFF), .seek (.both (ascii "cur") 0x43DFFFFFFFFFFFFF)]
      ⟨[], 0, 0, false, false⟩ = [.number 0x43DFFFFFFFFFFFFF, .undefined] :=
  ⟨by decide, by decide, by decide, by decide, by decide⟩

end Streams

end ToiLang
