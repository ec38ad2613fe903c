import IrsMachine.Server.Requests
import Mathlib.Tactic.IntervalCases

/-!
# Stopping the server

`IrsServer::Stop` runs beside the input-output loop, which hands the messages of open
connections to `OnMessage`. The memory is deleted before the loop is stopped.
-/

namespace IrsMachine
open Except

inductive MemoryPointer (M : Type) where
  | points (memory : M)
  | dangling
  | null

/-- The calls of `Stop` in their order; `AfterInitialize` is the second and the third. -/
inductive StopStep where
  | stopListening | deleteMemory | clearMemory | joinActions | stopIo | joinIo
  deriving DecidableEq, Repr

def stopSteps : List StopStep :=
  [.stopListening, .deleteMemory, .clearMemory, .joinActions, .stopIo, .joinIo]

/-- A server with the calls that `Stop` has yet to make. A thread is true while it can be
joined. -/
structure IrsServer (M : Type) where
  memory : MemoryPointer M
  listening : Bool
  actionsThread : Bool
  ioThread : Bool
  ioRuns : Bool
  sent : List Bytes
  rest : List StopStep

/-- Why an event does not lead to a next state: it cannot happen now, `OnMessage` read the
memory through a pointer that has none, or the handler did not return. -/
inductive Halt where
  | impossible | noMemory
  | escaped (escape : Escape)

section
variable {M D : Type}

def IrsServer.running (memory : M) : IrsServer M where
  memory := .points memory
  listening := true
  actionsThread := true
  ioThread := true
  ioRuns := true
  sent := []
  rest := stopSteps

/-- One call of `Stop`. `EmitActions` is empty, so its thread has come to an end. -/
def IrsServer.stopWith (server : IrsServer M) : StopStep → IrsServer M
  | .stopListening => { server with listening := false }
  | .deleteMemory => { server with memory := .dangling }
  | .clearMemory => { server with memory := .null }
  | .joinActions => { server with actionsThread := false }
  | .stopIo => if server.ioThread then { server with ioRuns := false } else server
  | .joinIo => { server with ioThread := false }

def onMessage (library : Nlohmann D) (handler : IrsMemoryJsonHandler M D) (server : IrsServer M)
    (message : Bytes) :
    Except Halt (IrsServer M) :=
  match server.memory with
  | .points memory =>
    match emit library handler memory message with
    | .ok (answer, memory) =>
      .ok { server with memory := .points memory, sent := server.sent ++ [answer] }
    | .error escape => .error (.escaped escape)
  | .dangling | .null => .error .noMemory

inductive ServerEvent where
  | stop
  | message (text : Bytes)
  deriving DecidableEq

/-- `Stop` makes its next call, or the running loop hands over a message. -/
def serverStep (library : Nlohmann D) (handler : IrsMemoryJsonHandler M D) (server : IrsServer M) :
    ServerEvent → Except Halt (IrsServer M)
  | .stop =>
    match server.rest with
    | [] => .error .impossible
    | next :: rest => .ok ({ server with rest }.stopWith next)
  | .message text =>
    if server.ioRuns then onMessage library handler server text else .error .impossible

end

/-! ### How far `Stop` has come -/

section
variable {M D : Type}

structure Stopping (calls : Nat) (server : IrsServer M) : Prop where
  rest : server.rest = stopSteps.drop calls
  thread : calls ≤ 5 → server.ioThread = true
  runs : server.ioRuns = decide (calls ≤ 4)
  held : calls ≤ 1 → ∃ memory, server.memory = .points memory
  gone : 2 ≤ calls → ∀ memory, server.memory ≠ .points memory

theorem stopping_running (memory : M) : Stopping 0 (IrsServer.running memory) where
  rest := rfl
  thread := fun _ => rfl
  runs := rfl
  held := fun _ => ⟨memory, rfl⟩
  gone := fun after => by omega

theorem Stopping.stop {calls : Nat} {server server' : IrsServer M} {library : Nlohmann D}
    {handler : IrsMemoryJsonHandler M D} (at' : Stopping calls server)
    (step : serverStep library handler server .stop = .ok server') :
    Stopping (calls + 1) server' := by
  obtain ⟨rest, thread, runs, held, gone⟩ := at'
  unfold serverStep at step
  dsimp only at step
  split at step
  · cases step
  · rename_i next rest' split
    cases step
    have before : calls < 6 := by
      by_contra late
      rw [split, List.drop_eq_nil_of_le (by simpa [stopSteps] using late)] at rest
      cases rest
    interval_cases calls <;>
      (rw [split] at rest
       cases rest
       constructor <;> simp_all [IrsServer.stopWith, stopSteps])

theorem Stopping.message {calls : Nat} {server server' : IrsServer M} {library : Nlohmann D}
    {handler : IrsMemoryJsonHandler M D} {text : Bytes} (at' : Stopping calls server)
    (step : serverStep library handler server (.message text) = .ok server') :
    Stopping calls server' := by
  unfold serverStep at step
  dsimp only at step
  split at step
  · unfold onMessage at step
    split at step
    · rename_i memory points
      split at step
      · cases step
        refine ⟨at'.rest, at'.thread, at'.runs, fun _ => ⟨_, rfl⟩, fun after => ?_⟩
        exact absurd points (at'.gone after memory)
      · cases step
    · cases step
    · cases step
  · cases step

def ServerEvent.isStop : ServerEvent → Bool
  | .stop => true
  | .message _ => false

theorem Stopping.run {calls : Nat} {server server' : IrsServer M} {library : Nlohmann D}
    {handler : IrsMemoryJsonHandler M D} {events : List ServerEvent} (at' : Stopping calls server)
    (run : events.foldlM (serverStep library handler) server = .ok server') :
    Stopping (calls + events.countP ServerEvent.isStop) server' := by
  induction events generalizing calls server with
  | nil =>
    cases run
    exact at'
  | cons event events ih =>
    obtain ⟨middle, step, remaining⟩ := foldlM_cons_ok.mp run
    cases event with
    | stop =>
      have rest := ih (at'.stop step) remaining
      rwa [List.countP_cons_of_pos rfl, Nat.add_comm (events.countP _), ← Nat.add_assoc]
    | message text =>
      have rest := ih (at'.message step) remaining
      rwa [List.countP_cons_of_neg (by simp [ServerEvent.isStop])]

/-! ### Messages in time -/

/-- After the events of `before` the loop runs, and hands over the text in this state. -/
def Delivers (library : Nlohmann D) (handler : IrsMemoryJsonHandler M D) (memory : M)
    (events before : List ServerEvent) (server : IrsServer M) : Prop :=
  ∃ text after, events = before ++ .message text :: after ∧
    before.foldlM (serverStep library handler) (.running memory) = .ok server ∧ server.ioRuns = true

def FindsMemory (library : Nlohmann D) (handler : IrsMemoryJsonHandler M D) (memory : M)
    (events : List ServerEvent) : Prop :=
  ∀ before server, Delivers library handler memory events before server →
    ∃ held, server.memory = .points held

/-- No message is handed over once `Stop` has gone on to `AfterInitialize`. -/
def DeliversInTime (library : Nlohmann D) (handler : IrsMemoryJsonHandler M D) (memory : M)
    (events : List ServerEvent) : Prop :=
  ∀ before server, Delivers library handler memory events before server →
    before.countP ServerEvent.isStop ≤ 1

theorem findsMemory_iff (library : Nlohmann D) (handler : IrsMemoryJsonHandler M D) (memory : M)
    (events : List ServerEvent) :
    FindsMemory library handler memory events ↔ DeliversInTime library handler memory events := by
  constructor
  · intro finds before server delivers
    obtain ⟨held, points⟩ := finds before server delivers
    obtain ⟨text, after, -, run, -⟩ := delivers
    by_contra late
    exact ((stopping_running memory).run run).gone (by omega) held points
  · intro inTime before server delivers
    have early := inTime before server delivers
    obtain ⟨text, after, -, run, -⟩ := delivers
    exact ((stopping_running memory).run run).held (by omega)

/-- The window: a message that comes between the second call of `Stop` and the fifth. -/
theorem findsMemory_fails :
    ¬ FindsMemory libraryOfX handlerOfNothing () [.stop, .stop, .message requestOfX] := by
  intro finds
  obtain ⟨held, points⟩ := finds [.stop, .stop] _ ⟨requestOfX, [], rfl, rfl, rfl⟩
  cases points

end

end IrsMachine
