import Mathlib.Logic.Function.Basic
import Zyris.Transfer.Peer
import Zyris.Caps.Path

/-!
# Setting the original aside

`UndoStore::stash` and `claim_slot` of `crates/zyris-capkit/src/transfer/undo.rs`: any number of
calls over one root, in any number of processes, each with its own `NEXT_SEQ`.  The file system is
what is at each place; a rename puts what is at a place, with all that is in it, over whatever is at
another.
-/

namespace Zyris.Transfer.Undo

open Caps

inductive Node
  | dir
  | file (content : List UInt8)
  | symlink (target : List UInt8)
  deriving DecidableEq

def Node.isSymlink : Node → Bool
  | .symlink _ => true
  | _ => false

/-- A place: the names from the root of the file system down. -/
abbrev Place := List OsStr

abbrev Files := Place → Option Node

namespace Files

/-- The first `k` directories on the way to a place, those that were missing being made. -/
def makeDirs (fs : Files) (p : Place) (k : Nat) : Files := fun q =>
  if q <+: p.take k ∧ fs q = none then some .dir else fs q

def rename (fs : Files) (source dest : Place) : Files := fun q =>
  if source <+: q then none
  else if dest <+: q then fs (source ++ q.drop dest.length)
  else fs q

end Files

/-- `format!("{now_ms}-{seq}")`. -/
def slotName (nowMs seq : Nat) : OsStr := utf8 (toString nowMs ++ "-" ++ toString seq).toList

/-- Where a call that keeps a backup stands. -/
inductive StashPc
  -- `symlink_metadata` of the victim
  | looking
  -- `create_dir_all` of the root
  | preparing (symlink : Bool)
  -- `fetch_add`, with so many attempts left
  | drawing (symlink : Bool) (attempts : Nat)
  -- `create_dir` of the candidate
  | making (symlink : Bool) (attempts seq : Nat)
  | moving (symlink : Bool) (slot : OsStr)
  -- `copy`: opening the victim
  | opening (slot : OsStr)
  | creating (slot : OsStr) (content : List UInt8)
  | writing (slot : OsStr) (content : List UInt8) (written : Nat)
  | unlinking (slot : OsStr)
  | returned (slot : Option OsStr) (dest : Option Place)

/-- The slot it has obtained. -/
def StashPc.slot : StashPc → Option OsStr
  | .moving _ slot => some slot
  | .opening slot => some slot
  | .creating slot _ => some slot
  | .writing slot _ _ => some slot
  | .unlinking slot => some slot
  | .returned slot _ => slot
  | _ => none

def StashPc.isReturned : StashPc → Bool
  | .returned .. => true
  | _ => false

/-- A `stash`, in a process. -/
structure Stash where
  process : Nat
  victim : Place
  nowMs : Nat
  pc : StashPc

/-- `slot.join(name)`. -/
def Stash.dest (root : Place) (c : Stash) (slot : OsStr) : Place :=
  root ++ [slot, c.victim.getLastD []]

/-- What a call can do next to the files and the counter of its process. -/
inductive Stash.Step (root : Place) (c : Stash) (fs : Files) (seq : Nat) :
    StashPc → Files → Nat → Prop
  | looked {node : Node} : c.pc = .looking → fs c.victim = some node → c.victim ≠ [] →
    Step root c fs seq (.preparing node.isSymlink) fs seq
  -- there is nothing, or no `file_name`, or the look fails
  | nothing : c.pc = .looking → Step root c fs seq (.returned none none) fs seq
  -- `create_dir_all` comes so far
  | prepared {symlink : Bool} (k : Nat) : c.pc = .preparing symlink →
    (∀ j ≤ k, fs (root.take j) = none ∨ fs (root.take j) = some .dir) →
    Step root c fs seq
      (if root.length ≤ k then .drawing symlink MAX_ATTEMPTS else .returned none none)
      (fs.makeDirs root k) seq
  | drew {symlink : Bool} {n : Nat} : c.pc = .drawing symlink (n + 1) →
    Step root c fs seq (.making symlink n seq) fs ((seq + 1) % 2 ^ 64)
  | gaveUp {symlink : Bool} : c.pc = .drawing symlink 0 →
    Step root c fs seq (.returned none none) fs seq
  | made {symlink : Bool} {n k : Nat} : c.pc = .making symlink n k → fs root = some .dir →
    fs (root ++ [slotName c.nowMs k]) = none →
    Step root c fs seq (.moving symlink (slotName c.nowMs k))
      (Function.update fs (root ++ [slotName c.nowMs k]) (some .dir)) seq
  -- `AlreadyExists`
  | taken {symlink : Bool} {n k : Nat} : c.pc = .making symlink n k →
    fs (root ++ [slotName c.nowMs k]) ≠ none → Step root c fs seq (.drawing symlink n) fs seq
  | unmade {symlink : Bool} {n k : Nat} : c.pc = .making symlink n k →
    Step root c fs seq (.returned none none) fs seq
  -- nothing can be moved into itself
  | renamed {symlink : Bool} {slot : OsStr} : c.pc = .moving symlink slot →
    fs c.victim ≠ none → ¬ c.victim <+: c.dest root slot →
    Step root c fs seq (.returned (some slot) (some (c.dest root slot)))
      (fs.rename c.victim (c.dest root slot)) seq
  | unmoved {symlink : Bool} {slot : OsStr} : c.pc = .moving symlink slot →
    Step root c fs seq (if symlink then .returned (some slot) none else .opening slot) fs seq
  | opened {slot : OsStr} {content : List UInt8} : c.pc = .opening slot →
    fs c.victim = some (.file content) → Step root c fs seq (.creating slot content) fs seq
  -- `open` follows a link, to whatever it points at
  | followed {slot : OsStr} {target : List UInt8} (content : List UInt8) : c.pc = .opening slot →
    fs c.victim = some (.symlink target) → Step root c fs seq (.creating slot content) fs seq
  | created {slot : OsStr} {content : List UInt8} : c.pc = .creating slot content →
    Step root c fs seq (.writing slot content 0)
      (Function.update fs (c.dest root slot) (some (.file []))) seq
  | wrote {slot : OsStr} {content : List UInt8} {n : Nat} (k : Nat) :
    c.pc = .writing slot content n → Step root c fs seq (.writing slot content (n + k))
      (Function.update fs (c.dest root slot) (some (.file (content.take (n + k))))) seq
  | copied {slot : OsStr} {content : List UInt8} {n : Nat} : c.pc = .writing slot content n →
    content.length ≤ n → Step root c fs seq (.unlinking slot) fs seq
  | uncopied {slot : OsStr} : (c.pc = .opening slot ∨ (∃ content, c.pc = .creating slot content) ∨
      ∃ content n, c.pc = .writing slot content n) →
    Step root c fs seq (.returned (some slot) none) fs seq
  | unlinked {slot : OsStr} : c.pc = .unlinking slot → fs c.victim ≠ none →
    fs c.victim ≠ some .dir →
    Step root c fs seq (.returned (some slot) (some (c.dest root slot)))
      (Function.update fs c.victim none) seq
  -- `let _ = remove_file`
  | notUnlinked {slot : OsStr} : c.pc = .unlinking slot →
    Step root c fs seq (.returned (some slot) (some (c.dest root slot))) fs seq

/-- The files, the counter of each process, and the calls. -/
structure World where
  files : Files
  seqs : Nat → Nat
  calls : Arena Stash

inductive Act
  | stash (process : Nat) (victim : Place) (nowMs : Nat)
  | run (i : Nat)

/-- A call starts, or takes its next step. -/
inductive World.Step (root : Place) (w : World) : Act → World → Prop
  | stash (process : Nat) (victim : Place) (nowMs : Nat) :
    Step root w (.stash process victim nowMs)
      { w with calls := w.calls.alloc ⟨process, victim, nowMs, .looking⟩ }
  | run {i seq : Nat} {c : Stash} {pc : StashPc} {fs : Files} : w.calls.get i = some c →
    c.Step root w.files (w.seqs c.process) pc fs seq →
    Step root w (.run i) ⟨fs, Function.update w.seqs c.process seq,
      w.calls.update i ({ · with pc := pc })⟩

end Zyris.Transfer.Undo
