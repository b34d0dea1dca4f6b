import Mathlib.Tactic.SplitIfs
import NuAgent.Lib.Trace

/-!
# The upgrade worker

Reference: the runnable of `UdpRecevieThread.run` in `FirmwareBinControl.java`, with `CalTime` and
the acknowledgement flag of `SoundPlaySignalingHandler.java`.

The worker asks the station to start, streams the firmware file over TCP and then waits for the
acknowledgement of the whole file or for a timer. The acknowledgement flag, the timer flag and the
connection flag are shared with other threads and may change between any two steps of the worker. An
error while streaming reports a failure and falls through to the final wait, which reports again.
-/

namespace NuAgent.Ota

/-! ## The machine -/

/-- What the worker sends to the handler; the percentage of `UPGRADE_IN_PROCESS` is left out. -/
inductive HandlerMsg
  | firmmareStart
  | upgradeInProcess
  | firmmareFailure
  | firmmareSuccess
deriving DecidableEq

/-- Where the worker is; each point reads or writes at most one shared flag. -/
inductive Point
  | start
  | handshake
  | connect
  | openFile
  | firstRead
  | loopTest
  | onLineTest
  | sendChunk
  | readNext
  | progress
  | clearLock
  | startTimer
  | clearAck
  | waitAck
  | waitLock
  | waitTimer
  | finished
  /-- An exception outside the `try` block has ended the thread. -/
  | dead
deriving DecidableEq

/-- The worker and the flags it shares with other threads. -/
structure Worker where
  point : Point
  x20Rcvd : Bool
  lock2 : Bool
  tcpOnLine : Bool
  retryCount : ℕ
  /-- The bytes of the file that are not read yet. -/
  unread : List UInt8
  /-- The bytes of the last read, `none` when it returned `-1`. -/
  cache : Option (List UInt8)
  sendTotalSize : Int32
  tcpDisconnect : ℕ
  count : ℕ
  /-- The buffers passed to `MinaTCPClient.sendSignaling`. -/
  signalled : List (List UInt8)
  /-- The messages sent to the handler. -/
  sent : List HandlerMsg

/-- How a step that depends on the outside ends; a read returns about `n` bytes. -/
inductive Outcome
  | ok (n : ℕ)
  | exception

/-- The steps of the worker and of the other threads. -/
inductive UpgradeEvent
  /-- `signalingHandle` receives an acknowledgement with code `0x20`. -/
  | ack
  /-- `CalTime` wakes after its 25 seconds. -/
  | timer
  /-- The TCP client comes on line or goes off line. -/
  | onLine (b : Bool)
  | worker (o : Outcome)

/-- The value of `i` after a read. -/
def readSize : Option (List UInt8) → Int32
  | none => -1
  | some bytes => Int32.ofNat bytes.length

/-- `i = inputStream.read(cache); sendTotalSize += i`: at the end of the file `-1`, otherwise
between one and 1455 of the bytes that are left. -/
def Worker.read (w : Worker) (n : ℕ) : Worker :=
  let size := max 1 (min n 1455)
  let cache := if w.unread = [] then none else some (w.unread.take size)
  { w with
    cache := cache
    unread := w.unread.drop size
    sendTotalSize := w.sendTotalSize + readSize cache }

/-- An error exit from streaming: a failure is reported, and the final wait follows. -/
def Worker.fail (w : Worker) : Worker :=
  { w with sent := w.sent ++ [.firmmareFailure], point := .clearLock }

/-- One step of the worker. -/
def Worker.act (w : Worker) (o : Outcome) : Worker :=
  match w.point, o with
  | .start, _ =>
      { w with
        sent := w.sent ++ [.firmmareStart], x20Rcvd := false, retryCount := 0, point := .handshake }
  | .handshake, o =>
      if w.x20Rcvd = false ∧ w.retryCount < 5 then
        match o with
        | .ok _ => { w with retryCount := w.retryCount + 1 }
        | .exception => { w with point := .dead }
      else { w with point := .connect }
  | .connect, .ok _ => { w with sendTotalSize := 0, point := .openFile }
  | .connect, .exception => { w with point := .dead }
  | .openFile, .ok _ => { w with point := .firstRead }
  | .openFile, .exception => w.fail
  | .firstRead, .ok n => { w.read n with tcpDisconnect := 0, count := 0, point := .loopTest }
  | .firstRead, .exception => w.fail
  | .loopTest, _ =>
      if w.cache ≠ none ∧ w.x20Rcvd = true then { w with point := .onLineTest }
      else { w with point := .clearLock }
  | .onLineTest, _ =>
      if w.tcpOnLine then { w with point := .sendChunk }
      else if w.tcpDisconnect + 1 > 20000 then
        { w with tcpDisconnect := w.tcpDisconnect + 1 }.fail
      else { w with tcpDisconnect := w.tcpDisconnect + 1, point := .loopTest }
  | .sendChunk, .ok _ =>
      { w with
        signalled := w.signalled ++ w.cache.toList, count := w.count + 1, point := .readNext }
  | .sendChunk, .exception => w.fail
  | .readNext, .ok n => { w.read n with point := .progress }
  | .readNext, .exception => w.fail
  | .progress, _ =>
      { w with
        sent := if w.count % 10 = 0 then w.sent ++ [.upgradeInProcess] else w.sent
        tcpDisconnect := 0
        point := .loopTest }
  | .clearLock, _ => { w with lock2 := false, point := .startTimer }
  | .startTimer, .ok _ => { w with point := .clearAck }
  | .startTimer, .exception => { w with point := .dead }
  | .clearAck, _ => { w with x20Rcvd := false, point := .waitAck }
  | .waitAck, _ =>
      if w.x20Rcvd = true ∧ 100 * 1024 < w.sendTotalSize then { w with point := .waitLock }
      else { w with point := .waitTimer }
  | .waitLock, _ =>
      if w.lock2 = false then
        { w with
          sent := w.sent ++ [.firmmareSuccess], sendTotalSize := 0, point := .finished }
      else { w with point := .waitTimer }
  | .waitTimer, _ =>
      if w.lock2 = true then
        { w with
          sent := w.sent ++ [.firmmareFailure], sendTotalSize := 0, point := .finished }
      else { w with point := .waitAck }
  | .finished, _ => w
  | .dead, _ => w

/-- One step of any thread. -/
def Worker.step (w : Worker) : UpgradeEvent → Worker
  | .ack => { w with x20Rcvd := true }
  | .timer => { w with lock2 := true }
  | .onLine b => { w with tcpOnLine := b }
  | .worker o => w.act o

/-- The worker for a file, with the shared flags as earlier upgrades left them. -/
def Worker.init (file : List UInt8) (x20Rcvd lock2 tcpOnLine : Bool) : Worker :=
  { point := .start
    x20Rcvd := x20Rcvd
    lock2 := lock2
    tcpOnLine := tcpOnLine
    retryCount := 0
    unread := file
    cache := none
    sendTotalSize := 0
    tcpDisconnect := 0
    count := 0
    signalled := []
    sent := [] }

/-- The worker after a run. -/
def Worker.run (w : Worker) (evs : List UpgradeEvent) : Worker := Trace.run Worker.step w evs

/-! ## Outcomes -/

/-- The message reports the end of the upgrade. -/
def HandlerMsg.isOutcome : HandlerMsg → Bool
  | .firmmareFailure => true
  | .firmmareSuccess => true
  | _ => false

/-- The number of outcomes reported so far. -/
def Worker.outcomes (w : Worker) : ℕ := w.sent.countP HandlerMsg.isOutcome

/-- At most one outcome is reported, and success only for a file that was handed over whole. -/
def Worker.Truthful (file : List UInt8) (w : Worker) : Prop :=
  w.outcomes ≤ 1 ∧ (.firmmareSuccess ∈ w.sent → w.signalled.flatten = file)

/-- The step leaves the streaming by an error: an exception in the `try` block, or a connection that
has been off line for more than 20000 tests. -/
def Worker.ErrorExit (w : Worker) : UpgradeEvent → Prop
  | .worker o =>
      (o = .exception ∧
        w.point ∈ [Point.openFile, Point.firstRead, Point.sendChunk, Point.readNext]) ∨
      (w.point = .onLineTest ∧ w.tcpOnLine = false ∧ 20000 < w.tcpDisconnect + 1)
  | _ => False

/-! ## Before any error -/

/-- Every byte of the file is handed over, held in the cache or unread. -/
def Worker.Accounted (file : List UInt8) (w : Worker) : Prop :=
  w.signalled.flatten ++ w.cache.getD [] ++ w.unread = file ∧ (w.cache = none → w.unread = [])

/-- What the worker has done with the file, by where it is. A worker that never saw the first
acknowledgement has counted one read at most. -/
def Worker.Stream (file : List UInt8) (w : Worker) : Prop :=
  match w.point with
  | .start | .handshake | .connect => w.signalled = [] ∧ w.unread = file
  | .openFile | .firstRead => w.signalled = [] ∧ w.unread = file ∧ w.sendTotalSize = 0
  | .loopTest => w.Accounted file ∧ (w.x20Rcvd = true ∨ ¬ 100 * 1024 < w.sendTotalSize)
  | .onLineTest | .sendChunk => w.Accounted file ∧ w.x20Rcvd = true ∧ w.cache ≠ none
  | .readNext => w.signalled.flatten ++ w.unread = file ∧ w.x20Rcvd = true
  | .progress => w.Accounted file ∧ w.x20Rcvd = true
  | .clearLock | .startTimer | .clearAck | .waitAck | .waitTimer =>
      w.signalled.flatten = file ∨ ¬ 100 * 1024 < w.sendTotalSize
  | .waitLock => w.signalled.flatten = file
  | .finished => .firmmareSuccess ∈ w.sent → w.signalled.flatten = file
  | .dead => True

/-- A run without error exits: one outcome at the end, and a file that is accounted for. -/
structure Worker.Clean (file : List UInt8) (w : Worker) : Prop where
  outcomes : w.outcomes = if w.point = .finished then 1 else 0
  stream : w.Stream file

/-- A run with an error exit: its failure is reported and the final wait is ahead or over. -/
structure Worker.Failed (w : Worker) : Prop where
  outcomes : w.outcomes = if w.point = .finished then 2 else 1
  point : w.point ∈ [Point.clearLock, Point.startTimer, Point.clearAck, Point.waitAck,
    Point.waitLock, Point.waitTimer, Point.finished, Point.dead]

theorem success_not_mem {w : Worker} (h : w.outcomes = 0) : .firmmareSuccess ∉ w.sent := by
  intro hmem
  exact List.countP_eq_zero.mp h _ hmem rfl

/-- One read is far below the size that success requires. -/
theorem readSize_small {cache : Option (List UInt8)}
    (h : ∀ bytes, cache = some bytes → bytes.length ≤ 1455) :
    ¬ (100 * 1024 : Int32) < 0 + readSize cache := by
  rw [Int32.zero_add, Int32.lt_iff_toInt_lt]
  cases cache with
  | none => decide
  | some bytes =>
    have hlen := h bytes rfl
    have hbig : (100 * 1024 : Int32).toInt = 102400 := by decide
    rw [readSize, Int32.toInt_ofNat_of_lt (by omega), hbig]
    omega

theorem Worker.read_cache_small {w : Worker} {n : ℕ} {bytes : List UInt8}
    (h : (w.read n).cache = some bytes) : bytes.length ≤ 1455 := by
  simp only [Worker.read] at h
  split_ifs at h
  obtain rfl := Option.some.inj h
  rw [List.length_take]
  omega

/-- A read moves bytes from the unread part of the file into the cache. -/
theorem Worker.read_accounted {file : List UInt8} {w : Worker} (n : ℕ)
    (h : w.signalled.flatten ++ w.unread = file) : (w.read n).Accounted file := by
  simp only [Worker.Accounted, Worker.read]
  split_ifs with hend
  · rw [hend] at h ⊢
    simpa using h
  · simpa using h

/-- The other threads only raise the flags the accounts depend on. -/
theorem Worker.Stream.shared {file : List UInt8} {w : Worker} (h : w.Stream file)
    (x20Rcvd lock2 tcpOnLine : Bool) (hx : w.x20Rcvd = true → x20Rcvd = true) :
    { w with x20Rcvd := x20Rcvd, lock2 := lock2, tcpOnLine := tcpOnLine }.Stream file := by
  cases hp : w.point <;> simp only [Worker.Stream, Worker.Accounted, hp] at h ⊢ <;> try exact h
  case loopTest => exact ⟨h.1, h.2.imp_left hx⟩
  case onLineTest => exact ⟨h.1, hx h.2.1, h.2.2⟩
  case sendChunk => exact ⟨h.1, hx h.2.1, h.2.2⟩
  case readNext => exact ⟨h.1, hx h.2⟩
  case progress => exact ⟨h.1, hx h.2⟩

/-- What a step of the worker reports: nothing, the outcome that ends it, or an error. -/
inductive Worker.Report (w : Worker) (o : Outcome) : Prop
  | quiet (hne : ¬ w.ErrorExit (.worker o)) (hout : (w.act o).outcomes = w.outcomes)
      (hfin : (w.act o).point = .finished ↔ w.point = .finished)
  | ends (hne : ¬ w.ErrorExit (.worker o)) (hout : (w.act o).outcomes = w.outcomes + 1)
      (hfin : (w.act o).point = .finished) (hnot : w.point ≠ .finished)
  | errs (he : w.ErrorExit (.worker o)) (hout : (w.act o).outcomes = w.outcomes + 1)
      (hfin : (w.act o).point = .clearLock) (hnot : w.point ≠ .finished)

theorem Worker.fail_outcomes (w : Worker) : w.fail.outcomes = w.outcomes + 1 :=
  List.countP_append.trans rfl

/-- A step that sends no outcome and neither starts nor ends in the last point is quiet. -/
theorem Worker.Report.of_ne {w : Worker} {o : Outcome} (hne : ¬ w.ErrorExit (.worker o))
    (hout : (w.act o).outcomes = w.outcomes) (hp : w.point ≠ .finished)
    (hq : (w.act o).point ≠ .finished) : w.Report o :=
  .quiet hne hout ⟨fun h => absurd h hq, fun h => absurd h hp⟩

/-- An error exit reports a failure, whichever step it is taken at. -/
theorem Worker.act_of_error {w : Worker} {o : Outcome} (he : w.ErrorExit (.worker o)) :
    (∃ w' : Worker, w'.sent = w.sent ∧ w.act o = w'.fail) ∧ w.point ≠ .finished := by
  rcases he with ⟨rfl, hp⟩ | ⟨hp, hoff, hcount⟩
  · simp only [List.mem_cons, List.not_mem_nil, or_false] at hp
    rcases hp with hp | hp | hp | hp <;>
      exact ⟨⟨w, rfl, by simp only [act, hp]⟩, by simp [hp]⟩
  · refine ⟨⟨{ w with tcpDisconnect := w.tcpDisconnect + 1 }, rfl, ?_⟩, by simp [hp]⟩
    simp only [act, hp, hoff]
    rw [if_neg (by simp), if_pos hcount]

/-- In the `try` block a step that is no error exit has not raised an exception. -/
theorem Worker.ok_of_not_error {w : Worker} {o : Outcome} {p : Point}
    (he : ¬ w.ErrorExit (.worker o)) (hp : w.point = p)
    (hmem : p ∈ [Point.openFile, Point.firstRead, Point.sendChunk, Point.readNext]) :
    ∃ n, o = .ok n := by
  cases o with
  | ok n => exact ⟨n, rfl⟩
  | exception => exact absurd (.inl ⟨rfl, hp ▸ hmem⟩) he

/-- An off-line test that is no error exit goes on. -/
theorem Worker.onLine_of_not_error {w : Worker} {o : Outcome} (he : ¬ w.ErrorExit (.worker o))
    (hp : w.point = .onLineTest) (hoff : ¬ w.tcpOnLine = true) : ¬ w.tcpDisconnect + 1 > 20000 :=
  fun hcount => he (.inr ⟨hp, Bool.eq_false_iff.mpr hoff, hcount⟩)

theorem Worker.act_report (w : Worker) (o : Outcome) : w.Report o := by
  by_cases he : w.ErrorExit (.worker o)
  · obtain ⟨⟨w', hsent, hact⟩, hnot⟩ := act_of_error he
    refine .errs he ?_ (by rw [hact]; rfl) hnot
    rw [hact, fail_outcomes, outcomes, outcomes, hsent]
  cases hp : w.point
  case start =>
    refine .of_ne he ?_ (by simp [hp]) (by simp [act, hp])
    simp [outcomes, act, hp, HandlerMsg.isOutcome]
  case handshake =>
    refine .of_ne he ?_ (by simp [hp]) ?_ <;> simp only [act, hp] <;>
      split_ifs <;> cases o <;> simp [outcomes]
  case connect =>
    cases o <;> refine .of_ne he ?_ (by simp [hp]) ?_ <;> simp [act, hp, outcomes]
  case openFile =>
    obtain ⟨n, rfl⟩ := ok_of_not_error he hp (by decide)
    refine .of_ne he ?_ (by simp [hp]) ?_ <;> simp [act, hp, outcomes]
  case firstRead =>
    obtain ⟨n, rfl⟩ := ok_of_not_error he hp (by decide)
    refine .of_ne he ?_ (by simp [hp]) ?_ <;> simp [act, hp, outcomes, read]
  case loopTest =>
    refine .of_ne he ?_ (by simp [hp]) ?_ <;> simp only [act, hp] <;> split_ifs <;>
      simp [outcomes]
  case onLineTest =>
    refine .of_ne he ?_ (by simp [hp]) ?_ <;> simp only [act, hp] <;> split_ifs with hon hcount
    all_goals first
      | exact absurd hcount (onLine_of_not_error he hp hon)
      | simp [outcomes]
  case sendChunk =>
    obtain ⟨n, rfl⟩ := ok_of_not_error he hp (by decide)
    refine .of_ne he ?_ (by simp [hp]) ?_ <;> simp [act, hp, outcomes]
  case readNext =>
    obtain ⟨n, rfl⟩ := ok_of_not_error he hp (by decide)
    refine .of_ne he ?_ (by simp [hp]) ?_ <;> simp [act, hp, outcomes, read]
  case progress =>
    refine .of_ne he ?_ (by simp [hp]) (by simp [act, hp])
    simp only [act, hp, outcomes]
    split_ifs <;> simp [HandlerMsg.isOutcome]
  case clearLock =>
    refine .of_ne he ?_ (by simp [hp]) ?_ <;> simp [act, hp, outcomes]
  case startTimer =>
    cases o <;> refine .of_ne he ?_ (by simp [hp]) ?_ <;> simp [act, hp, outcomes]
  case clearAck =>
    refine .of_ne he ?_ (by simp [hp]) ?_ <;> simp [act, hp, outcomes]
  case waitAck =>
    refine .of_ne he ?_ (by simp [hp]) ?_ <;> simp only [act, hp] <;> split_ifs <;>
      simp [outcomes]
  case waitLock =>
    by_cases hlock : w.lock2 = false
    · refine .ends he ?_ ?_ (by simp [hp]) <;> simp [act, hp, hlock, outcomes, HandlerMsg.isOutcome]
    · refine .of_ne he ?_ (by simp [hp]) ?_ <;> simp [act, hp, hlock, outcomes]
  case waitTimer =>
    by_cases hlock : w.lock2 = true
    · refine .ends he ?_ ?_ (by simp [hp]) <;> simp [act, hp, hlock, outcomes, HandlerMsg.isOutcome]
    · refine .of_ne he ?_ (by simp [hp]) ?_ <;> simp [act, hp, hlock, outcomes]
  case finished =>
    exact .quiet he (by simp [act, hp]) (by simp [act, hp])
  case dead =>
    exact .quiet he (by simp [act, hp]) (by simp [act, hp])

/-- Without an error exit a step of the worker keeps the accounts. -/
theorem Worker.act_stream {file : List UInt8} {w : Worker} (hs : w.Stream file)
    (hout : w.point ≠ .finished → w.outcomes = 0) {o : Outcome}
    (he : ¬ w.ErrorExit (.worker o)) : (w.act o).Stream file := by
  cases hp : w.point <;> simp only [Stream, hp] at hs
  case start => simpa [act, hp, Stream] using hs
  case handshake =>
    simp only [act, hp]
    split_ifs
    · cases o
      exacts [by simpa [Stream, hp] using hs, trivial]
    · simpa [Stream] using hs
  case connect =>
    cases o
    · simpa [act, hp, Stream] using hs
    · simp [act, hp, Stream]
  case openFile =>
    obtain ⟨n, rfl⟩ := ok_of_not_error he hp (by decide)
    simpa [act, hp, Stream] using hs
  case firstRead =>
    obtain ⟨n, rfl⟩ := ok_of_not_error he hp (by decide)
    obtain ⟨hsig, hunread, htotal⟩ := hs
    have hacc : (w.read n).Accounted file := read_accounted n (by rw [hsig, hunread]; rfl)
    have hsmall : ¬ 100 * 1024 < (w.read n).sendTotalSize := by
      have h := readSize_small fun bytes hb => read_cache_small (w := w) (n := n) hb
      rw [← htotal] at h
      exact h
    simp only [act, hp, Stream]
    exact ⟨hacc, .inr hsmall⟩
  case loopTest =>
    obtain ⟨⟨hfile, hend⟩, hx⟩ := hs
    simp only [act, hp]
    split_ifs with hc
    · simpa [Stream] using ⟨⟨hfile, hend⟩, hc.2, hc.1⟩
    · -- the loop is over at the end of the file, or the flag was never seen
      simp only [Stream]
      by_cases hcache : w.cache = none
      · left
        rw [hcache, hend hcache] at hfile
        simpa using hfile
      · exact .inr (hx.resolve_left fun hx => hc ⟨hcache, hx⟩)
  case onLineTest =>
    simp only [act, hp]
    split_ifs with hon hcount
    · exact hs
    · exact absurd hcount (onLine_of_not_error he hp hon)
    · exact ⟨hs.1, .inl hs.2.1⟩
  case sendChunk =>
    obtain ⟨n, rfl⟩ := ok_of_not_error he hp (by decide)
    obtain ⟨⟨hfile, -⟩, hx, hcache⟩ := hs
    obtain ⟨bytes, hbytes⟩ := Option.ne_none_iff_exists'.mp hcache
    rw [hbytes] at hfile
    simp only [act, hp, Stream, hbytes]
    exact ⟨by simpa using hfile, hx⟩
  case readNext =>
    obtain ⟨n, rfl⟩ := ok_of_not_error he hp (by decide)
    simp only [act, hp, Stream]
    exact ⟨read_accounted n hs.1, hs.2⟩
  case progress =>
    simp only [act, hp, Stream]
    exact ⟨hs.1, .inl hs.2⟩
  case clearLock => simpa [act, hp, Stream] using hs
  case startTimer =>
    cases o
    · simpa [act, hp, Stream] using hs
    · simp [act, hp, Stream]
  case clearAck => simpa [act, hp, Stream] using hs
  case waitAck =>
    simp only [act, hp]
    split_ifs with hc
    · exact hs.resolve_right fun hbig => hbig hc.2
    · exact hs
  case waitLock =>
    simp only [act, hp]
    split_ifs
    · exact fun _ => hs
    · exact .inl hs
  case waitTimer =>
    have hnot := success_not_mem (hout (by simp [hp]))
    simp only [act, hp]
    split_ifs
    · intro hmem
      simp [hnot] at hmem
    · exact hs
  case finished => simpa [act, hp, Stream] using hs
  case dead => simp [act, hp, Stream]

/-! ## Whole runs -/

/-- Without an error exit a step keeps the accounts and the outcomes. -/
theorem Worker.Clean.step {file : List UInt8} {w : Worker} (h : w.Clean file) {e : UpgradeEvent}
    (he : ¬ w.ErrorExit e) : (w.step e).Clean file := by
  cases e with
  | ack => exact ⟨h.outcomes, h.stream.shared true w.lock2 w.tcpOnLine fun _ => rfl⟩
  | timer => exact ⟨h.outcomes, h.stream.shared w.x20Rcvd true w.tcpOnLine id⟩
  | onLine b => exact ⟨h.outcomes, h.stream.shared w.x20Rcvd w.lock2 b id⟩
  | worker o =>
    have hzero : w.point ≠ .finished → w.outcomes = 0 := fun hp => h.outcomes.trans (if_neg hp)
    refine ⟨?_, act_stream h.stream hzero he⟩
    have hout := h.outcomes
    show (w.act o).outcomes = if (w.act o).point = .finished then 1 else 0
    cases w.act_report o with
    | quiet _ hsame hfin => rw [hsame, hout]; simp only [hfin]
    | ends _ hone hfin hnot => rw [hone, hout, if_neg hnot, if_pos hfin]
    | errs herr => exact absurd herr he

/-- The final points are closed under steps, and none of them is an error exit. -/
theorem Worker.act_final {w : Worker} (o : Outcome)
    (h : w.point ∈ [Point.clearLock, Point.startTimer, Point.clearAck, Point.waitAck,
      Point.waitLock, Point.waitTimer, Point.finished, Point.dead]) :
    (w.act o).point ∈ [Point.clearLock, Point.startTimer, Point.clearAck, Point.waitAck,
      Point.waitLock, Point.waitTimer, Point.finished, Point.dead] ∧ ¬ w.ErrorExit (.worker o) := by
  simp only [List.mem_cons, List.not_mem_nil, or_false] at h
  rcases h with hp | hp | hp | hp | hp | hp | hp | hp
  · simp [act, hp, ErrorExit]
  · cases o <;> simp [act, hp, ErrorExit]
  · simp [act, hp, ErrorExit]
  · simp only [act, hp]
    split_ifs <;> simp [ErrorExit, hp]
  · simp only [act, hp]
    split_ifs <;> simp [ErrorExit, hp]
  · simp only [act, hp]
    split_ifs <;> simp [ErrorExit, hp]
  · simp [act, hp, ErrorExit]
  · simp [act, hp, ErrorExit]

theorem Worker.Failed.step {w : Worker} (h : w.Failed) (e : UpgradeEvent) : (w.step e).Failed := by
  cases e with
  | ack => exact ⟨h.outcomes, h.point⟩
  | timer => exact ⟨h.outcomes, h.point⟩
  | onLine b => exact ⟨h.outcomes, h.point⟩
  | worker o =>
    obtain ⟨hmem, he⟩ := act_final o h.point
    refine ⟨?_, hmem⟩
    have hout := h.outcomes
    show (w.act o).outcomes = if (w.act o).point = .finished then 2 else 1
    cases w.act_report o with
    | quiet _ hsame hfin => rw [hsame, hout]; simp only [hfin]
    | ends _ hone hfin hnot => rw [hone, hout, if_neg hnot, if_pos hfin]
    | errs herr => exact absurd herr he

/-- An error exit reports the first outcome. -/
theorem Worker.Clean.error {file : List UInt8} {w : Worker} (h : w.Clean file) {e : UpgradeEvent}
    (he : w.ErrorExit e) : (w.step e).Failed := by
  cases e with
  | worker o =>
    cases w.act_report o with
    | quiet hne => exact absurd he hne
    | ends hne => exact absurd he hne
    | errs _ hone hpoint hnot =>
      refine ⟨?_, ?_⟩
      · show (w.act o).outcomes = if (w.act o).point = .finished then 2 else 1
        rw [hone, h.outcomes, if_neg hnot, hpoint, if_neg (by decide)]
      · show (w.act o).point ∈ _
        rw [hpoint]
        decide
  | ack => exact he.elim
  | timer => exact he.elim
  | onLine b => exact he.elim

/-- A run either stays clean or takes an error exit and fails. -/
theorem Worker.Clean.run {file : List UInt8} {w : Worker} (h : w.Clean file)
    (evs : List UpgradeEvent) :
    (Trace.Along Worker.step (fun w e => ¬ w.ErrorExit e) w evs ∧ (w.run evs).Clean file) ∨
      (¬ Trace.Along Worker.step (fun w e => ¬ w.ErrorExit e) w evs ∧ (w.run evs).Failed) := by
  induction evs generalizing w with
  | nil => exact .inl ⟨trivial, h⟩
  | cons e evs ih =>
    by_cases he : w.ErrorExit e
    · have hstep : ∀ (w : Worker) e, w.Failed → (w.step e).Failed := fun _ e h => h.step e
      exact .inr ⟨fun hC => hC.1 he, Trace.run_inv hstep (h.error he) evs⟩
    · exact (ih (h.step he)).imp (fun hC => ⟨⟨he, hC.1⟩, hC.2⟩)
        fun hC => ⟨fun hC' => hC.1 hC'.2, hC.2⟩

theorem Worker.Clean.truthful {file : List UInt8} {w : Worker} (h : w.Clean file) :
    w.Truthful file := by
  refine ⟨?_, fun hmem => ?_⟩
  · rw [h.outcomes]
    split_ifs <;> decide
  · by_cases hp : w.point = .finished
    · have hs := h.stream
      simp only [Stream, hp] at hs
      exact hs hmem
    · exact absurd hmem (success_not_mem (h.outcomes.trans (if_neg hp)))

/-- **When the outcome is single and truthful.** For every file, every state of the shared flags and
every run: if no step leaves the streaming by an error, at most one outcome is reported and success
only for a file that was handed over whole; and a worker that has finished after an error has
reported two outcomes. -/
theorem upgrade_outcome (file : List UInt8) (x20Rcvd lock2 tcpOnLine : Bool)
    (evs : List UpgradeEvent) :
    let w := Worker.init file x20Rcvd lock2 tcpOnLine
    let noError := ∀ pre e post, evs = pre ++ e :: post → ¬ (w.run pre).ErrorExit e
    (noError → (w.run evs).Truthful file) ∧
      ((w.run evs).point = .finished → ((w.run evs).Truthful file ↔ noError)) := by
  intro w noError
  have hinit : w.Clean file := ⟨rfl, rfl, rfl⟩
  have hiff : Trace.Along Worker.step (fun w e => ¬ w.ErrorExit e) w evs ↔ noError :=
    Trace.along_iff
  rcases hinit.run evs with ⟨hno, hclean⟩ | ⟨herr, hfailed⟩
  · exact ⟨fun _ => hclean.truthful, fun _ => ⟨fun _ => hiff.mp hno, fun _ => hclean.truthful⟩⟩
  · refine ⟨fun hno => absurd (hiff.mpr hno) herr, fun hfin => ⟨fun htrue => ?_, fun hno =>
      absurd (hiff.mpr hno) herr⟩⟩
    have hout := hfailed.outcomes
    rw [if_pos hfin] at hout
    have hone := htrue.1
    omega

/-! ## A run with two outcomes -/

/-- The bytes of a read that fills the cache. -/
def fullRead : List UInt8 := List.replicate 1455 0

/-- A file of 72 full reads. -/
def longFile : List UInt8 := (List.replicate 72 fullRead).flatten

theorem length_fullReads (k : ℕ) : (List.replicate k fullRead).flatten.length = k * 1455 := by
  induction k with
  | zero => rfl
  | succ k ih =>
    rw [List.replicate_succ, List.flatten_cons, List.length_append, ih, fullRead,
      List.length_replicate]
    omega

/-- A step of the worker in which a read fills the cache. -/
def act1455 : UpgradeEvent := .worker (.ok 1455)

/-- The handshake is acknowledged, 70 reads are handed over, the connection goes off line for 20001
tests, and the acknowledgement that the final wait looks for arrives all the same. -/
def disconnectRun : List UpgradeEvent :=
  [act1455, .ack, act1455, act1455, act1455, act1455] ++
    ((List.replicate 70 (List.replicate 5 act1455)).flatten ++
      (.onLine false :: ((List.replicate 20000 (List.replicate 2 act1455)).flatten ++
        [act1455, act1455, act1455, act1455, act1455, .ack, act1455, act1455])))

/-- The worker is about to test its loop, with one full read in the cache and `k` to come. -/
structure Worker.Streaming (tcpOnLine : Bool) (k : ℕ) (w : Worker) : Prop where
  point : w.point = .loopTest
  x20Rcvd : w.x20Rcvd = true
  tcpOnLine : w.tcpOnLine = tcpOnLine
  cache : w.cache = some fullRead
  unread : w.unread = (List.replicate k fullRead).flatten
  sendTotalSize : w.sendTotalSize = Int32.ofNat (1455 * (72 - k))
  signalled : w.signalled = List.replicate (71 - k) fullRead
  bound : k < 72

theorem Worker.read_full {w : Worker} {k : ℕ}
    (h : w.unread = (List.replicate (k + 1) fullRead).flatten) :
    (w.read 1455).cache = some fullRead ∧
      (w.read 1455).unread = (List.replicate k fullRead).flatten ∧
      (w.read 1455).sendTotalSize = w.sendTotalSize + 1455 := by
  have hlen : fullRead.length = 1455 := List.length_replicate
  have hne : fullRead ++ (List.replicate k fullRead).flatten ≠ [] := by
    intro h0
    have hzero := congrArg List.length h0
    simp [hlen] at hzero
  have hsize : max 1 (min 1455 1455) = 1455 := rfl
  rw [List.replicate_succ, List.flatten_cons] at h
  simp only [read, h, if_neg hne, hsize, List.take_left' hlen, List.drop_left' hlen,
    readSize, hlen, true_and]
  rfl

theorem Worker.act_readNext {w : Worker} (hp : w.point = .readNext) (n : ℕ) :
    w.act (.ok n) = { w.read n with point := .progress } := by
  simp only [act, hp]

theorem Worker.act_progress {w : Worker} (hp : w.point = .progress) (o : Outcome) :
    w.act o =
      { w with
        sent := if w.count % 10 = 0 then w.sent ++ [.upgradeInProcess] else w.sent
        tcpDisconnect := 0
        point := .loopTest } := by
  simp only [act, hp]

/-- One turn of the loop hands the cache over and fills it again. -/
theorem Worker.Streaming.turn (k : ℕ) (w : Worker)
    (h : w.Streaming true (k + 1) ∧ w.tcpDisconnect = 0) :
    (Trace.run Worker.step w (List.replicate 5 act1455)).Streaming true k ∧
      (Trace.run Worker.step w (List.replicate 5 act1455)).tcpDisconnect = 0 := by
  obtain ⟨⟨hp, hx, hon, hcache, hunread, htotal, hsig, hbound⟩, -⟩ := h
  have h1 : w.act (.ok 1455) = { w with point := .onLineTest } := by
    simp [act, hp, hx, hcache]
  have h2 : { w with point := .onLineTest }.act (.ok 1455) = { w with point := .sendChunk } := by
    simp [act, hon]
  have h3 : { w with point := .sendChunk }.act (.ok 1455) =
      { w with
        point := .readNext, signalled := w.signalled ++ [fullRead], count := w.count + 1 } := by
    simp [act, hcache]
  have hrun : Trace.run Worker.step w (List.replicate 5 act1455) =
      ((((w.act (.ok 1455)).act (.ok 1455)).act (.ok 1455)).act (.ok 1455)).act (.ok 1455) := rfl
  rw [hrun, h1, h2, h3]
  generalize hw' : { w with
    point := .readNext, signalled := w.signalled ++ [fullRead], count := w.count + 1 } = w'
  have hp' : w'.point = .readNext := by rw [← hw']
  have hx' : w'.x20Rcvd = true := by rw [← hw']; exact hx
  have hon' : w'.tcpOnLine = true := by rw [← hw']; exact hon
  have htotal' : w'.sendTotalSize = w.sendTotalSize := by rw [← hw']
  have hsig' : w'.signalled = List.replicate (71 - k) fullRead := by
    have hk : 71 - k = 71 - (k + 1) + 1 := by omega
    rw [← hw', hsig, hk, List.replicate_succ']
  obtain ⟨hc, hu, ht⟩ := read_full (w := w') (k := k) (by rw [← hw']; exact hunread)
  have hk : 1455 * (72 - k) = 1455 * (72 - (k + 1)) + 1455 := by omega
  rw [act_readNext hp', act_progress (w := { w'.read 1455 with point := .progress }) rfl]
  refine ⟨⟨rfl, hx', hon', hc, hu, ?_, hsig', by omega⟩, rfl⟩
  rw [hk, Int32.ofNat_add, ← htotal, ← htotal']
  exact ht

/-- One test of the connection while it is off line and `d` more tests are allowed. -/
theorem Worker.Streaming.offLine (d : ℕ) (w : Worker)
    (h : w.Streaming false 1 ∧ d + 1 ≤ 20000 ∧ w.tcpDisconnect = 20000 - (d + 1)) :
    (Trace.run Worker.step w (List.replicate 2 act1455)).Streaming false 1 ∧ d ≤ 20000 ∧
      (Trace.run Worker.step w (List.replicate 2 act1455)).tcpDisconnect = 20000 - d := by
  obtain ⟨⟨hp, hx, hon, hcache, hunread, htotal, hsig, hbound⟩, hd, hdis⟩ := h
  have h1 : w.act (.ok 1455) = { w with point := .onLineTest } := by
    simp [act, hp, hx, hcache]
  have hcount : ¬ 20000 < w.tcpDisconnect + 1 := by omega
  have h2 : { w with point := .onLineTest }.act (.ok 1455) =
      { w with tcpDisconnect := w.tcpDisconnect + 1, point := .loopTest } := by
    simp [act, hon, hcount]
  have hrun : Trace.run Worker.step w (List.replicate 2 act1455) =
      (w.act (.ok 1455)).act (.ok 1455) := rfl
  rw [hrun, h1, h2]
  have hnext : w.tcpDisconnect + 1 = 20000 - d := by omega
  exact ⟨⟨rfl, hx, hon, hcache, hunread, htotal, hsig, hbound⟩, by omega, hnext⟩

theorem Worker.Streaming.goOffLine {k : ℕ} {w : Worker} (h : w.Streaming true k) :
    { w with tcpOnLine := false }.Streaming false k :=
  ⟨h.point, h.x20Rcvd, rfl, h.cache, h.unread, h.sendTotalSize, h.signalled, h.bound⟩

/-- Off line the worker stays in its loop for 20000 tests. -/
theorem Worker.Streaming.offLine_run (n : ℕ) (w : Worker) (h : w.Streaming false 1)
    (hn : n ≤ 20000) (hdis : w.tcpDisconnect = 20000 - n) :
    (Trace.run Worker.step w (List.replicate n (List.replicate 2 act1455)).flatten).Streaming
        false 1 ∧
      (Trace.run Worker.step w (List.replicate n (List.replicate 2 act1455)).flatten).tcpDisconnect
        = 20000 := by
  rw [← Nat.zero_add n] at hn hdis
  obtain ⟨htests, -, hdis⟩ := Trace.run_blocks
    (P := fun d (w : Worker) => w.Streaming false 1 ∧ d ≤ 20000 ∧ w.tcpDisconnect = 20000 - d)
    offLine n 0 ⟨h, hn, hdis⟩
  exact ⟨htests, hdis⟩

/-- From the last allowed test on: the failure is reported, and then the success. -/
theorem Worker.Streaming.finish (w : Worker) (h : w.Streaming false 1)
    (hdis : w.tcpDisconnect = 20000) :
    let w' := Trace.run Worker.step w
      [act1455, act1455, act1455, act1455, act1455, .ack, act1455, act1455]
    w'.sent = w.sent ++ [.firmmareFailure] ++ [.firmmareSuccess] ∧ w'.signalled = w.signalled := by
  obtain ⟨hp, hx, hon, hcache, hunread, htotal, hsig, hbound⟩ := h
  have h1 : w.act (.ok 1455) = { w with point := .onLineTest } := by
    simp [act, hp, hx, hcache]
  have hcount : 20000 < w.tcpDisconnect + 1 := by omega
  have h2 : { w with point := .onLineTest }.act (.ok 1455) =
      { w with tcpDisconnect := w.tcpDisconnect + 1 }.fail := by
    simp [act, fail, hon, hcount]
  have hbig : 102400 < w.sendTotalSize := by
    rw [htotal]
    decide
  have hrun : Trace.run Worker.step w
      [act1455, act1455, act1455, act1455, act1455, .ack, act1455, act1455] =
      Trace.run Worker.step ((w.act (.ok 1455)).act (.ok 1455))
        [act1455, act1455, act1455, .ack, act1455, act1455] := rfl
  rw [hrun, h1, h2]
  simp [fail, act1455, step, act, hbig]

theorem Worker.streaming_start :
    (Trace.run Worker.step (Worker.init longFile false false true)
      [act1455, .ack, act1455, act1455, act1455, act1455]).Streaming true 71 ∧
    (Trace.run Worker.step (Worker.init longFile false false true)
      [act1455, .ack, act1455, act1455, act1455, act1455]).tcpDisconnect = 0 := by
  have hopen : Trace.run Worker.step (Worker.init longFile false false true)
      [act1455, .ack, act1455, act1455, act1455] =
      { Worker.init longFile false false true with
        point := .firstRead, x20Rcvd := true, sent := [.firmmareStart] } := rfl
  have hrun : [act1455, .ack, act1455, act1455, act1455, act1455] =
      [act1455, .ack, act1455, act1455, act1455] ++ [act1455] := rfl
  rw [hrun, Trace.run_append, hopen]
  generalize hw : { Worker.init longFile false false true with
    point := .firstRead, x20Rcvd := true, sent := [.firmmareStart] } = w
  have hunread : w.unread = (List.replicate (71 + 1) fullRead).flatten := by
    rw [← hw, Worker.init, longFile]
  obtain ⟨hc, hu, ht⟩ := Worker.read_full hunread
  have hact : w.act (.ok 1455) =
      { w.read 1455 with tcpDisconnect := 0, count := 0, point := .loopTest } := by
    have hp : w.point = .firstRead := by rw [← hw]
    simp only [Worker.act, hp]
  show (w.act (.ok 1455)).Streaming true 71 ∧ (w.act (.ok 1455)).tcpDisconnect = 0
  rw [hact]
  refine ⟨⟨rfl, ?_, ?_, hc, hu, ?_, ?_, by decide⟩, rfl⟩
  · show w.x20Rcvd = true
    rw [← hw]
  · show w.tcpOnLine = true
    rw [← hw]
    rfl
  · show (w.read 1455).sendTotalSize = _
    rw [ht, ← hw]
    rfl
  · show w.signalled = _
    rw [← hw]
    rfl

/-- The connection is lost for good after 70 reads. -/
theorem Worker.Streaming.disconnect {w : Worker} (h : w.Streaming true 1)
    (hzero : w.tcpDisconnect = 0) :
    let w' := Trace.run Worker.step w
      (.onLine false :: ((List.replicate 20000 (List.replicate 2 act1455)).flatten ++
        [act1455, act1455, act1455, act1455, act1455, .ack, act1455, act1455]))
    (∃ before, w'.sent = before ++ [.firmmareFailure] ++ [.firmmareSuccess]) ∧
      w'.signalled = List.replicate 70 fullRead := by
  obtain ⟨htests, hdis⟩ := h.goOffLine.offLine_run 20000 _ (Nat.le_refl _)
    (hzero.trans (Nat.sub_self 20000).symm)
  obtain ⟨hsent, hsig⟩ := htests.finish _ hdis
  rw [Trace.run_cons, Trace.run_append]
  exact ⟨⟨_, hsent⟩, hsig.trans htests.signalled⟩

/-- The worker after `disconnectRun`. -/
theorem Worker.run_disconnect :
    (∃ before, ((Worker.init longFile false false true).run disconnectRun).sent =
      before ++ [.firmmareFailure] ++ [.firmmareSuccess]) ∧
    ((Worker.init longFile false false true).run disconnectRun).signalled
      = List.replicate 70 fullRead := by
  obtain ⟨hon, hzero⟩ := Trace.run_blocks
    (P := fun k (w : Worker) => w.Streaming true k ∧ w.tcpDisconnect = 0) Streaming.turn 70 1
    streaming_start
  rw [run, disconnectRun, Trace.run_append, Trace.run_append]
  exact hon.disconnect hzero

/-- **Failure and success after a lost connection.** Both outcomes are reported, and the file was
not handed over whole. -/
theorem upgrade_outcome_fails :
    .firmmareFailure ∈ ((Worker.init longFile false false true).run disconnectRun).sent ∧
      .firmmareSuccess ∈ ((Worker.init longFile false false true).run disconnectRun).sent ∧
      ((Worker.init longFile false false true).run disconnectRun).signalled.flatten ≠ longFile ∧
      ¬ ((Worker.init longFile false false true).run disconnectRun).Truthful longFile := by
  obtain ⟨⟨before, hsent⟩, hsig⟩ := Worker.run_disconnect
  generalize (Worker.init longFile false false true).run disconnectRun = w at hsent hsig ⊢
  have hfailure : .firmmareFailure ∈ w.sent := by
    rw [hsent]
    exact List.mem_append_left _ (List.mem_append_right _ (List.mem_singleton.mpr rfl))
  have hsuccess : .firmmareSuccess ∈ w.sent := by
    rw [hsent]
    exact List.mem_append_right _ (List.mem_singleton.mpr rfl)
  have hwhole : w.signalled.flatten ≠ longFile := by
    intro heq
    have hlen := congrArg List.length heq
    rw [hsig, longFile, length_fullReads, length_fullReads] at hlen
    exact absurd hlen (by decide)
  exact ⟨hfailure, hsuccess, hwhole, fun htrue => hwhole (htrue.2 hsuccess)⟩

end NuAgent.Ota
