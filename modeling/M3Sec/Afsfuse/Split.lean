import M3Sec.Afsfuse.Client

/-! # The split operations

What the three operations with a split call come to: the value they return, what they do
after the start of the call, and what they put into the caller's buffer depend on how the
Rx calls turn out, and on nothing else.
-/

namespace M3Sec.Afsfuse

open Fallible Memory

structure Outcome where
  ret : ℤ
  events : List Event
  data : Str

def Call.bytes (call : Call) : Str := call.chunks.flatMap Subtype.val

variable {ρ α : Type} {env : Environment ρ} {s : Client ρ}

def Client.opened (env : Environment ρ) (q : Request) (s : Client ρ) : List Event :=
  s.trace ++ List.replicate (env.interrupts s.outside) .interrupted ++ [.acquired, .newCall, .start q]

/-- The operation makes a split call, with this outcome. -/
def Performs (env : Environment ρ) (x : Op ρ ℤ) (q : Request) (upload : Option (ℤ × Str))
    (outcome : Call → Outcome) : Prop :=
  ∀ s, exec x s = (.ok (outcome (env.split q upload s.outside).1).ret, {
    outside := (env.split q upload s.outside).2
    trace := s.opened env q ++ (outcome (env.split q upload s.outside).1).events ++ [.released]
    buffer := s.buffer.store 0 (outcome (env.split q upload s.outside).1).data })

/-- Clean up at `throwerror` after the events. -/
def getattrThrown (call : Call) (events : List Event) (data : Str) : Outcome where
  ret := call.error
  events := events ++ [.rxError, .endCall call.error]
  data := data

/-- What `rx_Read` reads in `xmp_getattr`. -/
def getattrData (call : Call) (length : ℤ) : Str := call.bytes.take (rxCount call.negative length)

def getattrOutcome (call : Call) : Outcome :=
  if call.start ≠ 0 then getattrThrown call [] []
  else match call.header with
    | none => getattrThrown call [.xdrLong] []
    | some length =>
      let data := getattrData call length
      if data = [] then
        getattrThrown call [.xdrLong, .rxRead call.last.val] (List.replicate sizeofPointer 0)
      else ⟨0, [.xdrLong, .rxRead data.length, .endCall 0], data⟩

def readOutcome (call : Call) : Outcome :=
  if call.start ≠ 0 then ⟨0, [], []⟩
  else match call.header with
    | none => ⟨0, [.xdrLong], []⟩
    | some _ => {
      ret := call.bytes.length + call.last.val
      events := .xdrLong :: call.chunks.map (fun bs => .rxRead bs.val.length) ++
        [.rxRead call.last.val, .rxError, .endCall (if call.error ≠ 0 then 1 else 0)]
      data := call.bytes }

def writeOutcome (length : ℤ) (call : Call) : Outcome :=
  if call.start ≠ 0 then ⟨call.error, [.rxError], []⟩
  else if call.encodes = false then ⟨call.error, [.xdrLong, .rxError], []⟩
  else if call.written ≤ 0 then ⟨call.error, [.xdrLong, .rxWrite call.written, .rxError], []⟩
  else if call.ended ≠ 0 then
    ⟨call.error, [.xdrLong, .rxWrite call.written, .endCall 0, .rxError], []⟩
  else ⟨length, [.xdrLong, .rxWrite call.written, .endCall 0], []⟩

/-! ## Parts -/

@[simp] theorem exec_event (e : Event) :
    exec (event e) s = (.ok (), { s with trace := s.trace ++ [e] }) := rfl

@[simp] theorem exec_store (p : ℕ) (bs : Str) :
    exec (store p bs) s = (.ok (), { s with buffer := s.buffer.store p bs }) := rfl

@[simp] theorem exec_relconnection :
    exec relconnection s = (.ok (), { s with trace := s.trace ++ [.released] }) := rfl

@[simp] theorem exec_ask (f : ρ → α × ρ) :
    exec (ask f) s = (.ok (f s.outside).1, { s with outside := (f s.outside).2 }) := rfl

@[simp] theorem exec_gotoIf (c : Bool) : exec (gotoIf c) s =
    (if c then .error .throwerror else .ok (), s) := by
  cases c <;> rfl

theorem foldl_trace (events : List Event) (s : Client ρ) :
    events.foldl (fun s e => { s with trace := s.trace ++ [e] }) s =
      { s with trace := s.trace ++ events } := by
  induction events generalizing s with
  | nil => simp
  | cons e events ih => simp [ih]

theorem exec_getconnection : exec (getconnection env) s = (.ok (), { s with
    trace := s.trace ++ List.replicate (env.interrupts s.outside) .interrupted ++ [.acquired] }) := by
  have hwait : exec ((List.replicate (env.interrupts s.outside) Event.interrupted).forM event) s =
      (.ok (), { s with
        trace := s.trace ++ List.replicate (env.interrupts s.outside) .interrupted }) := by
    rw [exec_forM fun e _ s => exec_event e, foldl_trace]
  rw [getconnection, exec_bind_ok (exec_get s), exec_bind_ok hwait]
  exact exec_event _

theorem exec_xmpReadLoop (call : Call) (chunks : List {bs : Str // bs ≠ [] ∧ bs.length ≤ 1024})
    (t : ℕ) (readbytes : ℤ) (s : Client ρ) :
    exec (xmpReadLoop call chunks t readbytes) s = (.ok
      (readbytes + (chunks.flatMap Subtype.val).length + call.last.val,
        if call.error ≠ 0 then 1 else 0), {
      outside := s.outside
      trace := s.trace ++ chunks.map (fun bs => .rxRead bs.val.length) ++
        [.rxRead call.last.val, .rxError]
      buffer := s.buffer.store t (chunks.flatMap Subtype.val) }) := by
  induction chunks generalizing t readbytes s with
  | nil =>
    rw [xmpReadLoop, exec_bind_ok (exec_event _), exec_bind_ok (exec_event _), exec_pure]
    simp
  | cons bs chunks ih =>
    rw [xmpReadLoop, exec_bind_ok (exec_event _), exec_bind_ok (exec_store _ _), ih]
    simp [Region.store_append, Int.add_assoc]

theorem exec_rxRead_nil {call : Call} {length : ℤ} (h : getattrData call length = []) :
    exec (rxRead call length) s =
      (.ok call.last.val, { s with trace := s.trace ++ [.rxRead call.last.val] }) := by
  have hdata : (call.chunks.flatMap Subtype.val).take (rxCount call.negative length) = [] := h
  rw [rxRead, hdata, exec_bind_ok (exec_event _), exec_bind_ok (exec_store _ _), exec_pure]
  simp

theorem exec_rxRead {call : Call} {length : ℤ} (h : getattrData call length ≠ []) :
    exec (rxRead call length) s = (.ok (getattrData call length).length, { s with
      trace := s.trace ++ [.rxRead (getattrData call length).length]
      buffer := s.buffer.store 0 (getattrData call length) }) := by
  have hdata : (call.chunks.flatMap Subtype.val).take (rxCount call.negative length) =
    getattrData call length := rfl
  rw [rxRead, hdata, exec_bind_ok (exec_event _), exec_bind_ok (exec_store _ _), exec_pure, if_neg h]

theorem performs_of {q : Request} {upload : Option (ℤ × Str)} {body : Call → Op ρ ℤ}
    {outcome : Call → Outcome}
    (h : ∀ call s, exec (body call) s = (.ok (outcome call).ret, { s with
      trace := s.trace ++ (outcome call).events ++ [.released]
      buffer := s.buffer.store 0 (outcome call).data })) :
    Performs env (getconnection env >>= fun _ => start env q upload >>= body) q upload outcome := by
  intro s
  rw [exec_bind_ok exec_getconnection]
  simp [start, exec_bind, h, Client.opened]

theorem exec_rpc (q : Request) (s : Client ρ) :
    exec (rpc env q) s = (.ok (env.call q s.outside).1, { s with
      outside := (env.call q s.outside).2
      trace := s.trace ++ [.rpc q] }) := by
  rw [rpc, exec_bind_ok (exec_event _), exec_ask]

theorem exec_remote (q : Request) (s : Client ρ) :
    exec (remote env q) s = (.ok (env.call q s.outside).1, {
      outside := (env.call q s.outside).2
      trace := s.trace ++ List.replicate (env.interrupts s.outside) .interrupted ++
        [.acquired, .rpc q, .released]
      buffer := s.buffer }) := by
  rw [remote, exec_bind_ok exec_getconnection, exec_bind_ok (exec_rpc _ _),
    exec_bind_ok exec_relconnection, exec_pure]
  simp

theorem exec_status (q : Request) (s : Client ρ) :
    exec (status env q) s = (.ok (env.call q s.outside).1.code, {
      outside := (env.call q s.outside).2
      trace := s.trace ++ List.replicate (env.interrupts s.outside) .interrupted ++
        [.acquired, .rpc q, .released]
      buffer := s.buffer }) := by
  rw [status, exec_bind_ok (exec_remote q s), exec_pure]

theorem exec_xmpReadlink (path : CString) (size : ℕ) (s : Client ρ) :
    exec (xmpReadlink env path size) s =
      (.ok (env.call (.rxcReadlink path 512) s.outside).1.code, {
        outside := (env.call (.rxcReadlink path 512) s.outside).2
        trace := s.trace ++ List.replicate (env.interrupts s.outside) .interrupted ++
          [.acquired, .rpc (.rxcReadlink path 512), .released]
        buffer := (s.buffer.store 0 (List.replicate size 0)).store 0
          (((env.call (.rxcReadlink path 512) s.outside).1.received.elim [] Subtype.val ++
            List.replicate 511 0).take 511) }) := by
  rw [xmpReadlink, exec_bind_ok (exec_store _ _), exec_bind_ok (exec_remote _ _),
    exec_bind_ok (exec_store _ _), exec_pure]

/-! ## Operations -/

theorem performs_xmpRead (path : CString) (size offset : ℕ) (fi : MyFileInfo) :
    Performs env (xmpRead env path size offset fi)
      (.rxcRead path (.ofNat size) (.ofNat offset) fi) none readOutcome := by
  refine performs_of fun call s => ?_
  simp only [exec_tryCatch, exec_bind, exec_gotoIf, decodeLong]
  by_cases hstart : call.start = 0
  · cases hheader : call.header with
    | none => simp [readOutcome, hstart, hheader]
    | some length => simp [readOutcome, hstart, hheader, exec_xmpReadLoop, Call.bytes]
  · simp [readOutcome, hstart]

theorem performs_xmpGetattr (path : CString) :
    Performs env (xmpGetattr env path) (.rxcGetattr path 100) none getattrOutcome := by
  refine performs_of fun call s => ?_
  simp only [exec_tryCatch, exec_bind, exec_gotoIf, decodeLong]
  by_cases hstart : call.start = 0
  · cases hheader : call.header with
    | none => simp [getattrOutcome, getattrThrown, hstart, hheader]
    | some length =>
      by_cases hdata : getattrData call length = []
      · have hlast : call.last.val ≤ 0 := call.last.property
        simp [getattrOutcome, getattrThrown, hstart, hheader, hdata, exec_rxRead_nil hdata, hlast,
          exec_bind]
      · simp [getattrOutcome, hstart, hheader, hdata, exec_rxRead hdata, exec_bind, -bind_pure_comp]
  · simp [getattrOutcome, getattrThrown, hstart]

/-- The length that `xmp_write` announces. -/
def announced (buffer : Str) : ℤ := (UInt32.ofNat buffer.length).toInt32.toInt

theorem performs_xmpWrite (path : CString) (buffer : Str) (offset : ℕ) (fi : MyFileInfo) :
    Performs env (xmpWrite env path buffer offset fi)
      (.rxcWrite path (.ofNat buffer.length) (.ofNat offset) fi)
      (some (announced buffer, buffer.take (announced buffer).toNat))
      (writeOutcome (announced buffer)) := by
  refine performs_of fun call s => ?_
  simp only [exec_tryCatch, exec_bind, exec_gotoIf]
  by_cases hstart : call.start = 0
  · by_cases hencodes : call.encodes = true
    · by_cases hwritten : call.written ≤ 0
      · simp [writeOutcome, hstart, hencodes, hwritten]
      · by_cases hended : call.ended = 0
        · simp [writeOutcome, hstart, hencodes, hwritten, hended, announced]
        · simp [writeOutcome, hstart, hencodes, hwritten, hended]
    · simp [writeOutcome, hstart, hencodes]
  · simp [writeOutcome, hstart]

inductive SplitOperation where
  | getattr (path : CString)
  | read (path : CString) (size offset : ℕ) (fi : MyFileInfo)
  | write (path : CString) (buffer : Str) (offset : ℕ) (fi : MyFileInfo)

namespace SplitOperation

def operation : SplitOperation → Operation
  | getattr path => .getattr path
  | read path size offset fi => .read path size offset fi
  | write path buffer offset fi => .write path buffer offset fi

def request : SplitOperation → Request
  | getattr path => .rxcGetattr path 100
  | read path size offset fi => .rxcRead path (.ofNat size) (.ofNat offset) fi
  | write path buffer offset fi => .rxcWrite path (.ofNat buffer.length) (.ofNat offset) fi

def upload : SplitOperation → Option (ℤ × Str)
  | getattr _ | read .. => none
  | write _ buffer _ _ => some (announced buffer, buffer.take (announced buffer).toNat)

def outcome : SplitOperation → Call → Outcome
  | getattr _ => getattrOutcome
  | read .. => readOutcome
  | write _ buffer _ _ => writeOutcome (announced buffer)

theorem performs (op : SplitOperation) :
    Performs env (op.operation.run env) op.request op.upload op.outcome := by
  cases op with
  | getattr => exact performs_xmpGetattr _
  | read => exact performs_xmpRead _ _ _ _
  | write => exact performs_xmpWrite _ _ _ _

end SplitOperation

end M3Sec.Afsfuse
