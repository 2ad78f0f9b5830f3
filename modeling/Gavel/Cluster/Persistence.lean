import Gavel.Lib.WriteBehind
import Gavel.Cluster.Moves

/-!
# The supervisor, the writer and the store

The supervisor hands its durable operations over in the order it issues them. It awaits some of them;
the others go on the queue of the background writer, which applies them one at a time. A process may
stop at any moment, and whatever the store holds then is what the next one starts on.
-/

namespace Gavel.Cluster

/-- `QUEUE_DEPTH` -/
def queueDepth : Nat := 1024

/-- `issued` counts the operations of the supervisor's journal that have been handed over. The
supervisor reads nothing back, so its journal may be computed ahead of that. -/
structure Backed where
  supervisor : Supervisor
  issued : Nat
  store : Store
  writer : Writer Write

inductive BackedAction where
  /-- The supervisor starts on its next message. -/
  | turn (t : Supervisor.Turn)
  /-- It hands its next operation over. -/
  | issue
  /-- The writer takes a write off its queue. -/
  | take
  /-- The writer's current write reaches the store. -/
  | apply

namespace Backed

def boot (config : LocalClusterConfig) (scheduler : Scheduler) (elector : Elector) (store : Store)
    (now : Millis) : Backed where
  supervisor := Supervisor.bootstrap config scheduler elector store now
  issued := 0
  store := store
  writer := .idle

/-- The operation the supervisor is about to hand over. -/
def next (b : Backed) : Option DurableOp := b.supervisor.journal[b.issued]?.map JournalEntry.op

/-- An awaited operation is performed at once; an update waits until there is room in the queue. -/
def hand (b : Backed) : DurableOp → Backed
  | .queued w =>
      if b.writer.queue.length < queueDepth then
        { b with issued := b.issued + 1, writer := b.writer.push w }
      else b
  | op => { b with issued := b.issued + 1, store := b.store.perform op }

def step (b : Backed) : BackedAction → Backed
  | .turn t =>
      if b.issued = b.supervisor.journal.length then { b with supervisor := b.supervisor.step t } else b
  | .issue =>
      match b.next with
      | none => b
      | some op => b.hand op
  | .take => { b with writer := b.writer.take }
  | .apply =>
      match b.writer.current with
      | none => b
      | some w => { b with store := b.store.drain w, writer := b.writer.finish }

/-- The job and task tables in memory: as they were when the last operation was handed over, or as the
supervisor left them at the end of its message. -/
def memory (b : Backed) : Table Job × Table Task :=
  if b.issued = b.supervisor.journal.length then (b.supervisor.jobs, b.supervisor.tasks)
  else
    match (b.supervisor.journal.take b.issued).getLast? with
    | none => (∅, ∅)
    | some e => (e.jobs, e.tasks)

end Backed

/-- The stores a process may find when it starts: a new one, or what an earlier process had reached when
it stopped. -/
inductive Store.Reachable : Store → Prop where
  | empty : Reachable .empty
  | stopped {store : Store} (h : Reachable store) (config : LocalClusterConfig) (scheduler : Scheduler)
      (elector : Elector) (boot : Millis) (actions : List BackedAction) {b : Backed}
      (hb : b ∈ Run.visited Backed.step (Backed.boot config scheduler elector store boot) actions) :
      Reachable b.store

end Gavel.Cluster
