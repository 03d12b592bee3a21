import Zyris.Core.Connection.Step

/-!
# Registering a call, step by step

At the end of `handle_request` the reader locks `inflight`, loads the task's `done` flag and inserts
the call unless the flag is set.  `Shared.step` takes this for one step; here other tasks run in
between.  Whoever wants the lock meanwhile waits, but the flag is an atomic and may still be set.
-/

namespace Zyris.Core

open Proto

/-- How far the reader is with registering a call. -/
inductive LockPc
  -- `inflight` is not locked by the reader
  | free
  | locked
  -- the flag was loaded: what there is to insert, nothing if it was set
  | loaded (entry : Option (Nat × InflightCall))

/-- One end, with the lock of `inflight` the reader may hold. -/
structure FineShared where
  shared : Shared
  lock : LockPc

def FineShared.start (served : Served) : FineShared := ⟨.start served, .free⟩

inductive FineAct
  | lock
  | load
  | insert
  -- any other step of the end
  | other (a : Act)

def Act.ofReader : Act → Bool
  | .serve .readerRun => true
  | .receive _ => true
  | _ => false

def TaskPc.isLeaving : TaskPc → Bool
  | .leaving => true
  | _ => false

def ShutdownPc.drainsInflight : ShutdownPc → Bool
  | .drainingInflight => true
  | _ => false

def ReaderPc.isSpawned : ReaderPc → Bool
  | .spawned _ => true
  | _ => false

/-- The step of another task that locks `inflight`. -/
def Shared.locksInflight (s : Shared) : Act → Bool
  | .serve (.run t) => (s.serve.tasks.get t).any fun task => task.pc.isLeaving
  | .serve (.collect _ _) => true
  | .closing (.shutdownRun k) =>
    (s.closing.shutdowns.get k).any fun x => x.pc.drainsInflight
  | _ => false

/-- The reader has spawned a task and is about to register its call. -/
def Shared.registers (s : Shared) : Act → Bool
  | .serve .readerRun => s.serve.reader.isSpawned
  | _ => false

/-- What is not to be done now: the reader is in its locked section, or on its way there. -/
def FineShared.blocks (s : FineShared) (a : Act) : Bool :=
  match s.lock with
  | .free => s.shared.registers a
  | _ => a.ofReader || s.shared.locksInflight a

/-- The entry of a task, unless it is done. -/
def Task.entry (task : Task) (t : Nat) : Option (Nat × InflightCall) :=
  if task.done then none else some (task.id, ⟨task.capability, t, task.stream⟩)

/-- The insert, and the end of `handle_request`. -/
def Serve.register (v : Serve) (entry : Option (Nat × InflightCall)) : Serve :=
  { v with
    inflight := match entry with
      | some (id, call) => v.inflight.insert id call
      | none => v.inflight
    reader := .idle }

def Shared.register (s : Shared) (entry : Option (Nat × InflightCall)) : Shared :=
  { s with serve := s.serve.register entry }

/-- A step of one end, with the registration in three. -/
def FineShared.step (cfg : Config) (s : FineShared) : FineAct → Option FineShared
  | .lock =>
    match s.lock, s.shared.serve.reader with
    | .free, .spawned _ => some { s with lock := .locked }
    | _, _ => none
  | .load =>
    match s.lock, s.shared.serve.reader with
    | .locked, .spawned t =>
      (s.shared.serve.tasks.get t).map fun task => { s with lock := .loaded (task.entry t) }
    | _, _ => none
  | .insert =>
    match s.lock with
    | .loaded entry => some ⟨s.shared.register entry, .free⟩
    | _ => none
  | .other a =>
    if s.blocks a then none else (s.shared.step cfg a).map ({ s with shared := · })

end Zyris.Core
