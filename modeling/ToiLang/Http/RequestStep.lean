import ToiLang.Conversion
import ToiLang.Http.Build
import ToiLang.Transition

namespace ToiLang.Http

/-! A request that never blocks: what each step of it does with the socket. -/

inductive HttpReqState
  | connecting
  | sending
  | reading
  | done
  | error
  deriving DecidableEq, Repr

structure HttpRequest where
  state : HttpReqState
  wantRead : Bool
  wantWrite : Bool
  reqBuf : Bytes
  reqSent : Nat
  respBuf : Bytes
  respCap : Nat
  err : Bytes

/-- What `getsockopt` says about the connection. -/
inductive ConnectOutcome
  | connected
  | refused (strerror : Bytes)
  | failed

/-- What `send` does with the bytes that it is handed. -/
inductive SendOutcome
  | sent (n : Nat)
  | wouldBlock
  | interrupted
  | failed

inductive RecvOutcome
  | received (bytes : Bytes)
  | ended
  | wouldBlock
  | interrupted
  | failed

/-- What the calls of one step meet: `realloc` by the size that it is asked for. -/
structure StepInput where
  connect : ConnectOutcome
  sends : List SendOutcome
  recvs : List RecvOutcome
  grows : Nat → Bool

/-- A call that a step makes on the socket: a `send` with what it is handed and how much of it is
taken, a `recv` with what comes. -/
inductive SocketCall
  | connect
  | send (data : Bytes) (taken : Nat)
  | recv (data : Bytes)

/-- The three results of `step`. -/
structure StepReport where
  done : Bool
  response : Option ResponseTable
  err : Option Bytes

namespace HttpRequest

variable (parse : Bytes → Int → ResponseResult)

/-- The request of `http.request`, whose connection is on its way or there. -/
def start (connecting : Bool) (request : Bytes) : HttpRequest where
  state := if connecting then .connecting else .sending
  wantRead := false
  wantWrite := true
  reqBuf := request
  reqSent := 0
  respBuf := []
  respCap := 8192
  err := []

/-- `http_request_set_error` -/
def setError (req : HttpRequest) (message : Bytes) : HttpRequest :=
  { req with
    state := .error
    wantRead := false
    wantWrite := false
    err := (message.takeWhile (· ≠ 0)).take 255 }

def wantsWrite (req : HttpRequest) : HttpRequest := { req with wantWrite := true, wantRead := false }

def wantsRead (req : HttpRequest) : HttpRequest := { req with wantRead := true, wantWrite := false }

def connectPhase (o : ConnectOutcome) (req : HttpRequest) : HttpRequest × List SocketCall :=
  if req.state = .connecting then
    match o with
    | .failed => (req.setError (ascii "connect failed"), [.connect])
    | .refused strerror => (req.setError strerror, [.connect])
    | .connected => ({ req with state := .sending }.wantsWrite, [.connect])
  else (req, [])

/-- What the loop hands to `send`. -/
def unsent (req : HttpRequest) : Bytes := req.reqBuf.drop req.reqSent

/-- The loop over `send`; `none` where an outcome is missing or is none of a `send` of these bytes. -/
def sendLoop : List SendOutcome → HttpRequest → Option (HttpRequest × List SocketCall)
  | [], req => if req.reqBuf.length ≤ req.reqSent then some (req, []) else none
  | o :: os, req =>
    if req.reqBuf.length ≤ req.reqSent then some (req, [])
    else
      match o with
      | .sent n =>
        if 0 < n ∧ n ≤ req.unsent.length then
          (sendLoop os { req with reqSent := req.reqSent + n }).map fun r => (r.1, .send req.unsent n :: r.2)
        else none
      | .wouldBlock => some (req.wantsWrite, [.send req.unsent 0])
      | .interrupted => (sendLoop os req).map fun r => (r.1, .send req.unsent 0 :: r.2)
      | .failed => some (req.setError (ascii "send failed"), [.send req.unsent 0])

def sendPhase (os : List SendOutcome) (req : HttpRequest) : Option (HttpRequest × List SocketCall) :=
  if req.state = .sending then
    (sendLoop os req).map fun r =>
      if r.1.state ≠ .error ∧ r.1.reqBuf.length ≤ r.1.reqSent then
        ({ r.1 with state := .reading }.wantsRead, r.2)
      else r
  else some (req, [])

/-- The buffer is made larger where a piece might not fit; `none` where there is no memory. -/
def grow (grows : Nat → Bool) (req : HttpRequest) : Option HttpRequest :=
  if req.respCap < req.respBuf.length + 4096 + 1 then
    if grows (req.respCap * 2) then some { req with respCap := req.respCap * 2 } else none
  else some req

/-- The loop over `recv`; `none` where an outcome is missing or is none of a `recv` of 4096 bytes. -/
def recvLoop (grows : Nat → Bool) : List RecvOutcome → HttpRequest → Option (HttpRequest × List SocketCall)
  | [], req =>
    match req.grow grows with
    | none => some (req.setError (ascii "out of memory"), [])
    | some _ => none
  | o :: os, req =>
    match req.grow grows with
    | none => some (req.setError (ascii "out of memory"), [])
    | some req =>
      match o with
      | .received bytes =>
        if bytes ≠ [] ∧ bytes.length ≤ 4096 then
          (recvLoop grows os { req with respBuf := req.respBuf ++ bytes }).map fun r => (r.1, .recv bytes :: r.2)
        else none
      | .ended => some ({ req with state := .done, wantRead := false, wantWrite := false }, [.recv []])
      | .wouldBlock => some (req.wantsRead, [.recv []])
      | .interrupted => (recvLoop grows os req).map fun r => (r.1, .recv [] :: r.2)
      | .failed => some (req.setError (ascii "recv failed"), [.recv []])

def recvPhase (grows : Nat → Bool) (os : List RecvOutcome) (req : HttpRequest) :
    Option (HttpRequest × List SocketCall) :=
  if req.state = .reading then recvLoop grows os req else some (req, [])

/-- What a step reports behind its phases. -/
def report (req : HttpRequest) : StepReport :=
  match req.state with
  | .error => ⟨true, none, some req.err⟩
  | .done =>
    match parse req.respBuf (wrap req.respBuf.length) with
    | .error message => ⟨true, none, some (ascii message)⟩
    | .response r => ⟨true, some r, none⟩
  | _ => ⟨false, none, none⟩

/-- `http_request_step`, with its calls; `none` where it does not return with these outcomes. -/
def step (input : StepInput) (req : HttpRequest) : Option (HttpRequest × StepReport × List SocketCall) :=
  match req.state with
  | .done => some (req, ⟨true, none, none⟩, [])
  | .error => some (req, ⟨true, none, some req.err⟩, [])
  | _ =>
    let (req₁, calls₁) := req.connectPhase input.connect
    (req₁.sendPhase input.sends).bind fun (req₂, calls₂) =>
      (req₂.recvPhase input.grows input.recvs).map fun (req₃, calls₃) =>
        (req₃, req₃.report parse, calls₁ ++ calls₂ ++ calls₃)

end HttpRequest

/-- A request with the calls and the reports of the steps so far. -/
structure Exchange where
  req : HttpRequest
  calls : List SocketCall
  reports : List StepReport

namespace SocketCall

def isWrite : SocketCall → Bool
  | connect | send .. => true
  | recv _ => false

def isRead : SocketCall → Bool
  | connect | send .. => false
  | recv _ => true

/-- What the peer has of the bytes that `send` was handed. -/
def taken : SocketCall → Bytes
  | send data n => data.take n
  | connect | recv _ => []

def came : SocketCall → Bytes
  | recv data => data
  | connect | send .. => []

/-- From the bytes `rest` on, each `send` is handed what the ones before it have left. -/
def Handed : Bytes → List SocketCall → Bytes → Prop
  | rest, [], left => left = rest
  | rest, send data n :: calls, left => data = rest ∧ n ≤ rest.length ∧ Handed (rest.drop n) calls left
  | rest, connect :: calls, left => Handed rest calls left
  | rest, recv _ :: calls, left => Handed rest calls left

variable {rest left end' : Bytes} {calls calls' : List SocketCall}

theorem Handed.append (h : Handed rest calls left) (h' : Handed left calls' end') :
    Handed rest (calls ++ calls') end' := by
  induction calls generalizing rest with
  | nil =>
    have hleft : left = rest := h
    rw [← hleft]
    exact h'
  | cons c calls ih =>
    cases c with
    | send data n => exact ⟨h.1, h.2.1, ih h.2.2⟩
    | connect | recv data => exact ih h

/-- What was taken, in its order, and what is left are the bytes at the start. -/
theorem Handed.taken (h : Handed rest calls left) : calls.flatMap SocketCall.taken ++ left = rest := by
  induction calls generalizing rest with
  | nil => exact h
  | cons c calls ih =>
    cases c with
    | send data n =>
      obtain ⟨rfl, -, h⟩ := h
      rw [List.flatMap_cons, List.append_assoc, ih h]
      exact List.take_append_drop n data
    | connect | recv data => exact ih h

end SocketCall

namespace HttpRequest

variable {parse : Bytes → Int → ResponseResult} {req req' req₂ : HttpRequest} {calls calls' : List SocketCall}
  {input : StepInput} {out : StepReport}

/-- The flags say what the state waits for. -/
def Flagged (req : HttpRequest) : Prop :=
  (req.wantWrite = true ↔ req.state = .connecting ∨ req.state = .sending) ∧
    (req.wantRead = true ↔ req.state = .reading)

/-- Nothing is left of the request where the response is read or has been. -/
def Whole (req : HttpRequest) : Prop := req.state = .reading ∨ req.state = .done → req.unsent = []

/-- The buffer has room for what is in it and a zero byte. -/
def Fits (req : HttpRequest) : Prop := req.respBuf.length < req.respCap ∧ 8192 ≤ req.respCap

/-- What a part of a step does to a request, with its calls. -/
structure Advances (req req' : HttpRequest) (calls : List SocketCall) : Prop where
  handed : SocketCall.Handed req.unsent calls req'.unsent
  came : req'.respBuf = req.respBuf ++ calls.flatMap SocketCall.came
  flagged : req.Flagged → req'.Flagged
  whole : req.Whole → req'.Whole
  fits : req.Fits → req'.Fits

theorem Advances.refl (req : HttpRequest) : req.Advances req [] :=
  ⟨rfl, (List.append_nil _).symm, id, id, id⟩

theorem Advances.trans (h : req.Advances req' calls) (h' : req'.Advances req₂ calls') :
    req.Advances req₂ (calls ++ calls') := by
  refine ⟨h.handed.append h'.handed, ?_, h'.flagged ∘ h.flagged, h'.whole ∘ h.whole, h'.fits ∘ h.fits⟩
  rw [h'.came, h.came, List.flatMap_append, List.append_assoc]

/-- A call that sends and receives nothing. -/
theorem quiet_advances (call : SocketCall) (hunsent : req'.unsent = req.unsent) (hresp : req'.respBuf = req.respBuf)
    (hcap : req'.respCap = req.respCap) (hflagged : req'.Flagged) (hwhole : req.Whole → req'.Whole)
    (hcall : call = .connect ∨ call = .send req.unsent 0 ∨ call = .recv []) : req.Advances req' [call] := by
  have hfits : req.Fits → req'.Fits := by
    unfold Fits
    rw [hresp, hcap]
    exact id
  have hcame : req'.respBuf = req.respBuf ++ [call].flatMap SocketCall.came := by
    obtain rfl | rfl | rfl := hcall
    all_goals
      rw [hresp]
      exact (List.append_nil _).symm
  refine ⟨?_, hcame, fun _ => hflagged, hwhole, hfits⟩
  obtain rfl | rfl | rfl := hcall
  · exact hunsent
  · exact ⟨rfl, Nat.zero_le _, hunsent⟩
  · exact hunsent

theorem setError_flagged (req : HttpRequest) (message : Bytes) : (req.setError message).Flagged := by
  simp [Flagged, setError]

theorem setError_whole (req : HttpRequest) (message : Bytes) : (req.setError message).Whole := by
  intro h
  rcases h with h | h
  · cases h
  · cases h

theorem connectPhase_advances (o : ConnectOutcome) (req : HttpRequest) :
    req.Advances (req.connectPhase o).1 (req.connectPhase o).2 := by
  unfold connectPhase
  split
  · cases o with
    | connected =>
      refine quiet_advances .connect rfl rfl rfl ?_ (fun _ h => ?_) (.inl rfl)
      · simp [Flagged, wantsWrite]
      · simp [wantsWrite] at h
    | refused strerror =>
      exact quiet_advances .connect rfl rfl rfl (setError_flagged _ _) (fun _ => setError_whole _ _) (.inl rfl)
    | failed =>
      exact quiet_advances .connect rfl rfl rfl (setError_flagged _ _) (fun _ => setError_whole _ _) (.inl rfl)
  · exact .refl req

/-- The loop over `send` ends in the same state or with an error, and where it ends early there is
something left to send. -/
theorem sendLoop_advances {os : List SendOutcome} (hs : req.state = .sending)
    (h : sendLoop os req = some (req', calls)) :
    req.Advances req' calls ∧ (req'.state = .sending ∨ req'.state = .error) := by
  have hwhole {r : HttpRequest} (hr : r.state = .sending) : r.Whole := by
    intro h
    rw [hr] at h
    simp at h
  induction os generalizing req calls with
  | nil =>
    unfold sendLoop at h
    split at h
    next =>
      cases Option.some.inj h
      exact ⟨.refl _, .inl hs⟩
    next => cases h
  | cons o os ih =>
    unfold sendLoop at h
    split at h
    next =>
      cases Option.some.inj h
      exact ⟨.refl _, .inl hs⟩
    next =>
      cases o with
      | sent n =>
        dsimp only at h
        split at h
        next hn =>
          obtain ⟨⟨r, cs⟩, hr, heq⟩ := Option.map_eq_some_iff.mp h
          cases heq
          have hstate : { req with reqSent := req.reqSent + n }.state = .sending := hs
          obtain ⟨hadv, hend⟩ := ih hstate hr
          refine ⟨⟨⟨rfl, hn.2, ?_⟩, hadv.came, hadv.flagged, fun _ => hadv.whole (hwhole hs), hadv.fits⟩, hend⟩
          have hrest : { req with reqSent := req.reqSent + n }.unsent = req.unsent.drop n := by
            simp only [unsent, List.drop_drop]
          rw [← hrest]
          exact hadv.handed
        next => cases h
      | wouldBlock =>
        cases Option.some.inj h
        refine ⟨quiet_advances (.send req.unsent 0) rfl rfl rfl ?_ (fun _ => hwhole hs) (.inr (.inl rfl)), .inl hs⟩
        simp [Flagged, wantsWrite, hs]
      | interrupted =>
        obtain ⟨⟨r, cs⟩, hr, heq⟩ := Option.map_eq_some_iff.mp h
        cases heq
        obtain ⟨hadv, hend⟩ := ih hs hr
        exact ⟨⟨⟨rfl, Nat.zero_le _, hadv.handed⟩, hadv.came, hadv.flagged, hadv.whole, hadv.fits⟩, hend⟩
      | failed =>
        cases Option.some.inj h
        exact ⟨quiet_advances (.send req.unsent 0) rfl rfl rfl (setError_flagged _ _)
          (fun _ => setError_whole _ _) (.inr (.inl rfl)), .inr rfl⟩

theorem sendPhase_advances {os : List SendOutcome} (h : req.sendPhase os = some (req', calls)) :
    req.Advances req' calls ∧ (req'.state = .sending → req'.unsent ≠ []) := by
  unfold sendPhase at h
  split at h
  next hs =>
    obtain ⟨⟨r, cs⟩, hr, heq⟩ := Option.map_eq_some_iff.mp h
    obtain ⟨hadv, hend⟩ := sendLoop_advances hs hr
    dsimp only at heq
    split at heq
    next hall =>
      cases heq
      have hunsent : r.unsent = [] := List.drop_of_length_le hall.2
      refine ⟨⟨hadv.handed, hadv.came, fun _ => ?_, fun _ _ => hunsent, hadv.fits⟩, fun hsend => ?_⟩
      · simp [Flagged, wantsRead]
      · cases hsend
    next hall =>
      cases heq
      refine ⟨hadv, fun hsend hnil => hall ⟨?_, List.drop_eq_nil_iff.mp hnil⟩⟩
      rw [hsend]
      exact fun h => nomatch h
  next hs =>
    cases Option.some.inj h
    exact ⟨.refl req, fun hsend => absurd hsend hs⟩

theorem grow_spec {grows : Nat → Bool} (h : req.grow grows = some req') :
    (∃ cap, req' = { req with respCap := cap }) ∧
      (req.Fits → req'.Fits ∧ req'.respBuf.length + 4096 < req'.respCap) := by
  unfold grow at h
  split at h
  next hfull =>
    split at h
    next =>
      cases Option.some.inj h
      refine ⟨⟨_, rfl⟩, fun hfits => ?_⟩
      obtain ⟨hlen, hcap⟩ := hfits
      unfold Fits
      dsimp only
      omega
    next => cases h
  next hroom =>
    cases Option.some.inj h
    exact ⟨⟨req.respCap, rfl⟩, fun hfits => ⟨hfits, by omega⟩⟩

theorem noMemory_advances (req : HttpRequest) : req.Advances (req.setError (ascii "out of memory")) [] :=
  ⟨rfl, (List.append_nil _).symm, fun _ => setError_flagged _ _, fun _ => setError_whole _ _, id⟩

/-- The loop over `recv`: a piece lies in the buffer, behind the ones before it. -/
theorem recvLoop_advances {grows : Nat → Bool} {os : List RecvOutcome} (hs : req.state = .reading)
    (h : recvLoop grows os req = some (req', calls)) : req.Advances req' calls ∧ req'.state ≠ .sending := by
  induction os generalizing req calls with
  | nil =>
    unfold recvLoop at h
    split at h
    next =>
      cases Option.some.inj h
      exact ⟨noMemory_advances _, fun h => nomatch h⟩
    next => cases h
  | cons o os ih =>
    unfold recvLoop at h
    split at h
    next =>
      cases Option.some.inj h
      exact ⟨noMemory_advances _, fun h => nomatch h⟩
    next grown hgrow =>
      obtain ⟨⟨cap, rfl⟩, hgrown⟩ := grow_spec hgrow
      have hadv : req.Advances { req with respCap := cap } [] :=
        ⟨rfl, (List.append_nil _).symm, id, id, fun hfits => (hgrown hfits).1⟩
      cases o with
      | received bytes =>
        dsimp only at h
        split at h
        next hn =>
          obtain ⟨⟨r, cs⟩, hr, heq⟩ := Option.map_eq_some_iff.mp h
          cases heq
          obtain ⟨hrest, hend⟩ := @ih { req with respCap := cap, respBuf := req.respBuf ++ bytes } _ hs hr
          refine ⟨⟨hrest.handed, ?_, hrest.flagged, hrest.whole, fun hfits => hrest.fits ?_⟩, hend⟩
          · rw [hrest.came]
            exact List.append_assoc _ _ _
          · obtain ⟨⟨-, hcap⟩, hroom⟩ := hgrown hfits
            refine ⟨?_, hcap⟩
            dsimp only at hroom ⊢
            rw [List.length_append]
            omega
        next => cases h
      | ended =>
        cases Option.some.inj h
        refine ⟨hadv.trans (quiet_advances (.recv []) rfl rfl rfl ?_ (fun hwhole _ => hwhole (.inl hs)) (.inr (.inr rfl))), ?_⟩
        · simp [Flagged]
        · exact fun h => nomatch h
      | wouldBlock =>
        cases Option.some.inj h
        refine ⟨hadv.trans (quiet_advances (.recv []) rfl rfl rfl ?_ id (.inr (.inr rfl))), ?_⟩
        · simp [Flagged, wantsRead, hs]
        · intro hsend
          cases hs.symm.trans hsend
      | interrupted =>
        obtain ⟨⟨r, cs⟩, hr, heq⟩ := Option.map_eq_some_iff.mp h
        cases heq
        obtain ⟨hrest, hend⟩ := @ih { req with respCap := cap } _ hs hr
        have hquiet := hadv.trans hrest
        exact ⟨⟨hquiet.handed, hquiet.came, hquiet.flagged, hquiet.whole, hquiet.fits⟩, hend⟩
      | failed =>
        cases Option.some.inj h
        exact ⟨hadv.trans (quiet_advances (.recv []) rfl rfl rfl (setError_flagged _ _)
          (fun _ => setError_whole _ _) (.inr (.inr rfl))), fun h => nomatch h⟩

theorem recvPhase_advances {grows : Nat → Bool} {os : List RecvOutcome}
    (h : req.recvPhase grows os = some (req', calls)) :
    req.Advances req' calls ∧ (req'.state = .sending → req' = req) := by
  unfold recvPhase at h
  split at h
  next hs =>
    obtain ⟨hadv, hend⟩ := recvLoop_advances hs h
    exact ⟨hadv, fun hsend => absurd hsend hend⟩
  next =>
    cases Option.some.inj h
    exact ⟨.refl _, fun _ => rfl⟩

/-- The states that a step leaves no more. -/
def Final (req : HttpRequest) : Prop := req.state = .done ∨ req.state = .error

theorem step_final (h : req.Final) : req.step parse input = some (req, ⟨true, none,
    if req.state = .error then some req.err else none⟩, []) := by
  unfold step
  rcases h with h | h
  · rw [h]
    rfl
  · rw [h]
    rfl

theorem step_phases (hf : ¬req.Final) (h : req.step parse input = some (req', out, calls)) :
    ∃ req₂ calls₂ calls₃, (req.connectPhase input.connect).1.sendPhase input.sends = some (req₂, calls₂) ∧
      req₂.recvPhase input.grows input.recvs = some (req', calls₃) ∧ out = req'.report parse ∧
      calls = (req.connectPhase input.connect).2 ++ calls₂ ++ calls₃ := by
  unfold step at h
  split at h
  next hs => exact absurd (.inl hs) hf
  next hs => exact absurd (.inr hs) hf
  next =>
    dsimp only at h
    obtain ⟨⟨req₂, calls₂⟩, hsend, h⟩ := Option.bind_eq_some_iff.mp h
    obtain ⟨⟨req₃, calls₃⟩, hrecv, h⟩ := Option.map_eq_some_iff.mp h
    cases h
    exact ⟨req₂, calls₂, calls₃, hsend, hrecv, rfl, rfl⟩

theorem step_advances (h : req.step parse input = some (req', out, calls)) : req.Advances req' calls := by
  by_cases hf : req.Final
  · rw [step_final hf] at h
    cases h
    exact .refl _
  · obtain ⟨req₂, calls₂, calls₃, hsend, hrecv, -, rfl⟩ := step_phases hf h
    exact ((connectPhase_advances input.connect req).trans (sendPhase_advances hsend).1).trans
      (recvPhase_advances hrecv).1

/-- Behind a step a request that is being sent has bytes left. -/
theorem step_unsent (h : req.step parse input = some (req', out, calls)) (hs : req'.state = .sending) :
    req'.unsent ≠ [] := by
  by_cases hf : req.Final
  · rw [step_final hf] at h
    cases h
    rcases hf with hf | hf
    · cases hf.symm.trans hs
    · cases hf.symm.trans hs
  · obtain ⟨req₂, calls₂, calls₃, hsend, hrecv, -, -⟩ := step_phases hf h
    have hsame := (recvPhase_advances hrecv).2 hs
    rw [hsame] at hs ⊢
    exact (sendPhase_advances hsend).2 hs

/-- The first call of a step is what the flags name, and there is none where they name nothing. A read
is not made where its buffer cannot be had. -/
def Names (req : HttpRequest) (input : StepInput) (calls : List SocketCall) : Prop :=
  match calls with
  | [] => req.wantWrite = false ∧ (req.wantRead = true → input.grows (req.respCap * 2) = false)
  | c :: _ => c.isWrite = req.wantWrite ∧ c.isRead = req.wantRead

theorem sendLoop_first {os : List SendOutcome} (hne : req.unsent ≠ []) (h : sendLoop os req = some (req', calls)) :
    ∃ data n rest, calls = .send data n :: rest := by
  have hleft : ¬req.reqBuf.length ≤ req.reqSent := fun hle => hne (List.drop_of_length_le hle)
  cases os with
  | nil =>
    unfold sendLoop at h
    rw [if_neg hleft] at h
    cases h
  | cons o os =>
    unfold sendLoop at h
    rw [if_neg hleft] at h
    cases o with
    | sent n =>
      dsimp only at h
      split at h
      next =>
        obtain ⟨⟨r, cs⟩, -, heq⟩ := Option.map_eq_some_iff.mp h
        cases heq
        exact ⟨_, _, _, rfl⟩
      next => cases h
    | wouldBlock | failed =>
      cases Option.some.inj h
      exact ⟨_, _, _, rfl⟩
    | interrupted =>
      obtain ⟨⟨r, cs⟩, -, heq⟩ := Option.map_eq_some_iff.mp h
      cases heq
      exact ⟨_, _, _, rfl⟩

theorem recvLoop_first {grows : Nat → Bool} {os : List RecvOutcome} (h : recvLoop grows os req = some (req', calls)) :
    (calls = [] ∧ grows (req.respCap * 2) = false) ∨ ∃ data rest, calls = .recv data :: rest := by
  have hgrow : req.grow grows = none → grows (req.respCap * 2) = false := by
    intro hnone
    unfold grow at hnone
    split at hnone
    next =>
      split at hnone
      next => cases hnone
      next hno => exact Bool.eq_false_iff.mpr hno
    next => cases hnone
  cases os with
  | nil =>
    unfold recvLoop at h
    split at h
    next hnone =>
      cases Option.some.inj h
      exact .inl ⟨rfl, hgrow hnone⟩
    next => cases h
  | cons o os =>
    unfold recvLoop at h
    split at h
    next hnone =>
      cases Option.some.inj h
      exact .inl ⟨rfl, hgrow hnone⟩
    next =>
      refine .inr ?_
      cases o with
      | received bytes =>
        dsimp only at h
        split at h
        next =>
          obtain ⟨⟨r, cs⟩, -, heq⟩ := Option.map_eq_some_iff.mp h
          cases heq
          exact ⟨_, _, rfl⟩
        next => cases h
      | ended | wouldBlock | failed =>
        cases Option.some.inj h
        exact ⟨_, _, rfl⟩
      | interrupted =>
        obtain ⟨⟨r, cs⟩, -, heq⟩ := Option.map_eq_some_iff.mp h
        cases heq
        exact ⟨_, _, rfl⟩

theorem step_names (hf : req.Flagged) (hu : req.state = .sending → req.unsent ≠ [])
    (h : req.step parse input = some (req', out, calls)) : req.Names input calls := by
  obtain ⟨hwrite, hread⟩ := hf
  have hno {b : Bool} {p : Prop} (hb : b = true ↔ p) (hp : ¬p) : b = false := by
    cases b with
    | false => rfl
    | true => exact absurd (hb.mp rfl) hp
  by_cases hfinal : req.Final
  · rw [step_final hfinal] at h
    cases h
    have hstate : ¬(req.state = .connecting ∨ req.state = .sending) ∧ ¬req.state = .reading := by
      rcases hfinal with hs | hs
      · rw [hs]
        decide
      · rw [hs]
        decide
    refine ⟨hno hwrite hstate.1, fun htrue => ?_⟩
    exact absurd (hread.mp htrue) hstate.2
  · obtain ⟨req₂, calls₂, calls₃, hsend, hrecv, -, rfl⟩ := step_phases hfinal h
    cases hs : req.state with
    | connecting =>
      have hcall : (req.connectPhase input.connect).2 = [.connect] := by
        unfold connectPhase
        rw [if_pos hs]
        cases input.connect with
        | connected | refused strerror | failed => rfl
      rw [hcall]
      refine ⟨(hwrite.mpr (.inl hs)).symm, (hno hread ?_).symm⟩
      rw [hs]
      exact fun h => nomatch h
    | sending =>
      have hsame : req.connectPhase input.connect = (req, []) := by
        unfold connectPhase
        rw [if_neg (by rw [hs]; exact fun h => nomatch h)]
      rw [hsame] at hsend ⊢
      unfold sendPhase at hsend
      rw [if_pos hs] at hsend
      obtain ⟨⟨r, cs⟩, hr, heq⟩ := Option.map_eq_some_iff.mp hsend
      obtain ⟨data, n, rest, rfl⟩ := sendLoop_first (hu hs) hr
      have hcalls : calls₂ = .send data n :: rest := by
        dsimp only at heq
        split at heq
        next => exact (Prod.mk.inj heq).2.symm
        next => exact (Prod.mk.inj heq).2.symm
      rw [hcalls]
      refine ⟨(hwrite.mpr (.inr hs)).symm, (hno hread ?_).symm⟩
      rw [hs]
      exact fun h => nomatch h
    | reading =>
      have hsame : req.connectPhase input.connect = (req, []) := by
        unfold connectPhase
        rw [if_neg (by rw [hs]; exact fun h => nomatch h)]
      rw [hsame] at hsend ⊢
      unfold sendPhase at hsend
      rw [if_neg (by rw [hs]; exact fun h => nomatch h)] at hsend
      obtain ⟨rfl, rfl⟩ := Prod.mk.inj (Option.some.inj hsend)
      unfold recvPhase at hrecv
      rw [if_pos hs] at hrecv
      have hwritten : req.wantWrite = false := hno hwrite (by rw [hs]; decide)
      rcases recvLoop_first hrecv with ⟨rfl, hgrows⟩ | ⟨data, rest, rfl⟩
      · exact ⟨hwritten, fun _ => hgrows⟩
      · exact ⟨hwritten.symm, (hread.mpr hs).symm⟩
    | done => exact absurd (.inl hs) hfinal
    | error => exact absurd (.inr hs) hfinal

/-- A step that has not got to the end. -/
def pending : StepReport := ⟨false, none, none⟩

/-- What a request has reported so far: that it is not done; once what came of a response, and behind
that nothing more; an error again and again. -/
def Reported (parse : Bytes → Int → ResponseResult) (req : HttpRequest) (reports : List StepReport) : Prop :=
  match req.state with
  | .done => (req.report parse).response.isSome = !(req.report parse).err.isSome ∧
      ∃ k m, reports = List.replicate k pending ++ req.report parse :: List.replicate m ⟨true, none, none⟩
  | .error => ∃ k m, reports = List.replicate k pending ++ List.replicate (m + 1) ⟨true, none, some req.err⟩
  | _ => ∃ k, reports = List.replicate k pending

theorem report_done (hs : req.state = .done) :
    (req.report parse).response.isSome = !(req.report parse).err.isSome := by
  unfold report
  rw [hs]
  dsimp only
  split
  next => rfl
  next => rfl

theorem step_reported {reports : List StepReport} (hr : req.Reported parse reports)
    (h : req.step parse input = some (req', out, calls)) : req'.Reported parse (reports ++ [out]) := by
  by_cases hf : req.Final
  · rw [step_final hf] at h
    cases h
    unfold Reported at hr ⊢
    rcases hf with hs | hs
    · rw [hs] at hr ⊢
      obtain ⟨hone, k, m, rfl⟩ := hr
      refine ⟨hone, k, m + 1, ?_⟩
      rw [List.replicate_succ', List.append_assoc]
      rfl
    · rw [hs] at hr ⊢
      obtain ⟨k, m, rfl⟩ := hr
      refine ⟨k, m + 1, ?_⟩
      rw [List.replicate_succ' (n := m + 1), List.append_assoc]
      rfl
  · obtain ⟨-, -, -, -, -, rfl, -⟩ := step_phases hf h
    obtain ⟨k, rfl⟩ : ∃ k, reports = List.replicate k pending := by
      unfold Reported at hr
      split at hr
      next hs => exact absurd (.inl hs) hf
      next hs => exact absurd (.inr hs) hf
      next => exact hr
    unfold Reported
    split
    next hs => exact ⟨report_done hs, k, 0, rfl⟩
    next hs =>
      refine ⟨k, 0, ?_⟩
      unfold report
      rw [hs]
      rfl
    next hdone herror =>
      refine ⟨k + 1, ?_⟩
      have hpending : req'.report parse = pending := by
        unfold report
        cases hs : req'.state with
        | done => exact absurd hs hdone
        | error => exact absurd hs herror
        | connecting | sending | reading => rfl
      rw [hpending, List.replicate_succ']

end HttpRequest

namespace Exchange

section Runs

variable {parse : Bytes → Int → ResponseResult} {x x' : Exchange} {request : Bytes}

def start (connecting : Bool) (request : Bytes) : Exchange := ⟨.start connecting request, [], []⟩

def turn (parse : Bytes → Int → ResponseResult) (input : StepInput) (x : Exchange) : Option Exchange :=
  (x.req.step parse input).map fun r => ⟨r.1, x.calls ++ r.2.2, x.reports ++ [r.2.1]⟩

/-- The bytes of the request are handed to `send` once and in their order, all of them where the
response is read; what came is in the buffer; the reports; a request that is done or failed stays so;
the flags name what the next step does first. -/
structure Orderly (parse : Bytes → Int → ResponseResult) (request : Bytes) (x : Exchange) : Prop where
  handed : SocketCall.Handed request x.calls x.req.unsent
  taken : x.calls.flatMap SocketCall.taken ++ x.req.unsent = request
  whole : x.req.state = .reading ∨ x.req.state = .done → x.req.unsent = []
  came : x.req.respBuf = x.calls.flatMap SocketCall.came
  reported : x.req.Reported parse x.reports
  stays : x.req.Final → ∀ input x', x.turn parse input = some x' → x'.req = x.req
  names : ∀ input req' out calls, x.req.step parse input = some (req', out, calls) → x.req.Names input calls

/-- What every step keeps. -/
structure Inv (parse : Bytes → Int → ResponseResult) (request : Bytes) (x : Exchange) : Prop where
  handed : SocketCall.Handed request x.calls x.req.unsent
  whole : x.req.Whole
  came : x.req.respBuf = x.calls.flatMap SocketCall.came
  fits : x.req.Fits
  flagged : x.req.Flagged
  unsent : x.req.state = .sending → x.req.unsent ≠ []
  reported : x.req.Reported parse x.reports

theorem start_inv (connecting : Bool) (hne : request ≠ []) : Inv parse request (start connecting request) where
  handed := rfl
  whole h := by
    cases connecting with
    | true | false => simp [start, HttpRequest.start] at h
  came := rfl
  fits := ⟨show 0 < 8192 by decide, Nat.le_refl _⟩
  flagged := by
    cases connecting with
    | true | false => simp [start, HttpRequest.start, HttpRequest.Flagged]
  unsent _ := hne
  reported := by
    cases connecting with
    | true | false => exact ⟨0, rfl⟩

theorem Inv.turn {input : StepInput} (hi : Inv parse request x) (h : x.turn parse input = some x') :
    Inv parse request x' := by
  obtain ⟨⟨req', out, calls⟩, hstep, rfl⟩ := Option.map_eq_some_iff.mp h
  have hadv := HttpRequest.step_advances hstep
  exact {
    handed := hi.handed.append hadv.handed
    whole := hadv.whole hi.whole
    came := by
      dsimp only
      rw [hadv.came, hi.came, List.flatMap_append]
    fits := hadv.fits hi.fits
    flagged := hadv.flagged hi.flagged
    unsent := HttpRequest.step_unsent hstep
    reported := HttpRequest.step_reported hi.reported hstep }

theorem Inv.orderly (hi : Inv parse request x) : Orderly parse request x where
  handed := hi.handed
  taken := hi.handed.taken
  whole := hi.whole
  came := hi.came
  reported := hi.reported
  stays hf input x' h := by
    rw [Exchange.turn, HttpRequest.step_final hf] at h
    cases h
    rfl
  names _ _ _ _ h := HttpRequest.step_names hi.flagged hi.unsent h

theorem buildHttpRequest_ne (url : FetchUrl) (method : Bytes) (headers : HeaderTable) (body : Bytes) :
    buildHttpRequest url method headers body ≠ [] := by
  simp [buildHttpRequest]

/-- Whatever the calls of the steps meet, the exchange of a request stays in order. -/
theorem exchange_orderly (connecting : Bool) (url : FetchUrl) (method : Bytes) (headers : HeaderTable)
    (body : Bytes) (h : Transition.Reachable (turn parse) (fun _ _ => True)
      (start connecting (buildHttpRequest url method headers body)) x) :
    Orderly parse (buildHttpRequest url method headers body) x := by
  have hi : Inv parse (buildHttpRequest url method headers body) x :=
    h.invariant (start_inv connecting (buildHttpRequest_ne _ _ _ _)) fun _ _ _ hi _ h => hi.turn h
  exact hi.orderly

end Runs

namespace Sample

def url : FetchUrl := ⟨ascii "h", 80, ascii "/", by decide, by decide⟩

def request : Bytes := buildHttpRequest url (ascii "GET") [] []

/-- A response without a body. -/
def parse : Bytes → Int → ResponseResult := fun _ _ => .response ⟨200, [], [], fun _ => none, [], 0⟩

/-- The connection is there and the socket full; then it takes the request in two pieces and the
response comes in one. -/
def inPieces : List StepInput :=
  [⟨.connected, [.wouldBlock], [], fun _ => true⟩,
    ⟨.connected, [.sent 3, .interrupted, .sent (request.length - 3)], [.received [72], .ended], fun _ => true⟩]

theorem inPieces_orderly : ∃ x, Transition.run (turn parse) inPieces (start true request) = some x ∧
    x.req.state = .done ∧ Orderly parse request x := by
  have hrun : (Transition.run (turn parse) inPieces (start true request)).map (·.req.state) = some .done := by
    decide +kernel
  obtain ⟨x, hx, hs⟩ := Option.map_eq_some_iff.mp hrun
  exact ⟨x, hx, hs, exchange_orderly true url _ _ _ (Transition.run_reachable (fun _ _ _ => trivial) hx)⟩

def failing : StepInput := ⟨.connected, [.failed], [], fun _ => true⟩

/-- The error of a `send` is reported again by the step behind it. -/
theorem error_reported_twice : ¬∀ (parse : Bytes → Int → ResponseResult) (connecting : Bool) (url : FetchUrl)
    (method : Bytes) (headers : HeaderTable) (body : Bytes) (x : Exchange),
    Transition.Reachable (turn parse) (fun _ _ => True)
        (start connecting (buildHttpRequest url method headers body)) x → x.req.Final →
      (x.reports.filter fun r => r.response.isSome || r.err.isSome).length = 1 := by
  intro hall
  have hrun : ((Transition.run (turn parse) [failing, failing] (start false request)).map fun x =>
      (x.req.state, (x.reports.filter fun r => r.response.isSome || r.err.isSome).length)) = some (.error, 2) := by
    decide +kernel
  obtain ⟨x, hx, hs⟩ := Option.map_eq_some_iff.mp hrun
  obtain ⟨hstate, htwo⟩ := Prod.mk.inj hs
  have hone := hall parse false url _ _ _ x (Transition.run_reachable (fun _ _ _ => trivial) hx) (.inr hstate)
  rw [htwo] at hone
  cases hone

end Sample

end Exchange

end ToiLang.Http
