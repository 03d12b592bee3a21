import Zyris.Proto.Msgpack
import Zyris.Proto.Equiv.Attach
import Zyris.Core.Equiv.Closing
import Zyris.Core.Equiv.Duplex

/-!
# The negotiated limits

Only `send_attachment` cuts its bytes to `max_chunk`; no other limit is looked at on the sending
paths.  So the limits hold as far as the users keep them: their items, the envelopes made of their
payloads, and the requests that arrive (`Shared.WithinLimits`).  The length of a control frame is a
parameter here, `size`; under MessagePack it is `Envelope.frameLen`.
-/

namespace Zyris.Core

open Proto

/-! ### What the users bring in -/

/-- The payload a response goes out with. -/
def Config.outgoing (cfg : Config) (result : Payload) (ids : List Nat) : Payload :=
  if cfg.attachmentsEnabled then ⟨(detach cfg.digest INLINE_BLOB_MAX result.value ids).1⟩
  else result

/-- The envelopes with nothing of the users' in them. -/
inductive Config.Fixed (cfg : Config) : Envelope → Prop
  | sCredit (stream bytes : Nat) : Fixed cfg (.sCredit stream bytes)
  | sCancel (stream : Nat) : Fixed cfg (.sCancel stream)
  | sEnd (stream : Nat) : Fixed cfg (.sEnd stream .nil)
  | sEndAttachment (stream : Nat) (bytes : List UInt8) :
    Fixed cfg (.sEnd stream (Serve.trailer (cfg.digest bytes)))
  | canceled (id : Nat) : Fixed cfg (.err id .canceled)
  | streamCanceled (stream : Nat) : Fixed cfg (.sErr stream .canceled)
  | undeclared (id : Nat) :
    Fixed cfg (.err id (.invalidParams "streaming tool requires a stream declaration"))

/-- The act brings in what the envelope is made of. -/
inductive Shared.BringsIn (cfg : Config) (s : Shared) : Act → Envelope → Prop
  | called (method : String) (params metadata : Payload) (id : Nat) :
    BringsIn cfg s (.call (.call method params metadata)) (.req id method params none metadata)
  | calledStreaming (method : String) (params : Payload) (id stream : Nat) :
    BringsIn cfg s (.call (.callStreaming method params)) (.req id method params (some stream) .nil)
  | announced (n : Nat) (params : Payload) (id : Nat) :
    cfg.announceParams s.serve.served.descriptors = .ok params →
    BringsIn cfg s (.announce n) (.req id METHOD_ANNOUNCE params none .nil)
  | noted (method : String) (params : Payload) :
    BringsIn cfg s (.closing (.notify method params)) (.note method params)
  | answered (t : Nat) (o : Outcome) (result : Payload) (id : Nat) (ids : List Nat) :
    o.payload = some result →
    BringsIn cfg s (.serve (.dispatched t o)) (.res id (cfg.outgoing result ids))
  | refused (t : Nat) (error : WireError) (id : Nat) :
    BringsIn cfg s (.serve (.dispatched t (.error error))) (.err id error)
  | failed (t : Nat) (error : WireError) (stream : Nat) :
    BringsIn cfg s (.serve (.yielded t (.error error))) (.sErr stream error)
  | revoked (caller : Option Nat) (capabilities : List Capability) (built : Served)
    (name : String) (id : Nat) : Served.build capabilities = .ok built →
    name ∈ s.serve.served.revokedBy built →
    BringsIn cfg s (.serve (.replace caller capabilities))
      (.err id (.new .capabilityUnavailable ("capability " ++ name ++ " was revoked")))
  | revokedStream (caller : Option Nat) (capabilities : List Capability) (built : Served)
    (name : String) (stream : Nat) : Served.build capabilities = .ok built →
    name ∈ s.serve.served.revokedBy built →
    BringsIn cfg s (.serve (.replace caller capabilities))
      (.sErr stream (.new .capabilityUnavailable ("capability " ++ name ++ " was revoked")))
  | unreadable (id : Nat) (method : String) (params : Payload) (stream : Option Nat)
    (metadata : Payload) (error : WireError) : method = METHOD_ANNOUNCE →
    cfg.toAnnounceParams params = .error error →
    BringsIn cfg s (.receive (.control (.req id method params stream metadata))) (.err id error)
  -- the answer to an announcement has all its names, sorted by whether they are reserved
  | sorted (id : Nat) (method : String) (params : Payload) (stream : Option Nat)
    (metadata : Payload) (capabilities : List CapabilityDescriptor) : method = METHOD_ANNOUNCE →
    cfg.toAnnounceParams params = .ok capabilities →
    BringsIn cfg s (.receive (.control (.req id method params stream metadata)))
      (.res id ⟨AnnounceResult.value {
        accepted := (capabilities.filter fun c => c.name ∉ cfg.reserved).map (·.name)
        rejected := (capabilities.filter fun c => c.name ∈ cfg.reserved).map
          fun c => ⟨c.name, "reserved"⟩ }⟩)
  | undotted (id : Nat) (method : String) (params : Payload) (stream : Option Nat)
    (metadata : Payload) : method ≠ METHOD_ANNOUNCE → splitMethod method = none →
    BringsIn cfg s (.receive (.control (.req id method params stream metadata)))
      (.err id (.new .methodNotFound ("unknown method " ++ method)))
  | unserved (id : Nat) (method : String) (params : Payload) (stream : Option Nat)
    (metadata : Payload) (name tool : String) : method ≠ METHOD_ANNOUNCE →
    splitMethod method = some (name, tool) → s.serve.served.byName.get name = none →
    BringsIn cfg s (.receive (.control (.req id method params stream metadata)))
      (.err id (.new .capabilityNotAnnounced ("capability " ++ name ++ " not available")))

/-- The frame is a request for a tool of a capability that is served. -/
def Serve.Asked (v : Serve) (f : Frame) : Prop :=
  ∃ id method params stream metadata name tool,
    f = .control (.req id method params stream metadata) ∧ method ≠ METHOD_ANNOUNCE ∧
    splitMethod method = some (name, tool) ∧ (v.served.byName.get name).isSome

def TaskPc.isRunning : TaskPc → Bool
  | .ended => false
  | .stopped => false
  | .panicked => false
  | _ => true

/-- How many accepted requests are running. -/
def Serve.running (v : Serve) : Nat := v.tasks.total fun task => if task.pc.isRunning then 1 else 0

/-- The users keep the limits in this step: what they bring in makes envelopes that fit, items no
longer than a chunk, and requests while there is room. -/
structure Shared.WithinLimits (size : Envelope → Nat) (cfg : Config) (s : Shared) (a : Act) :
    Prop where
  control : ∀ e, s.BringsIn cfg a e → size e ≤ cfg.limits.maxControlFrame
  item : ∀ t b, a = .serve (.yielded t (.bytes b)) → b.length ≤ cfg.limits.maxChunk
  request : ∀ f, a = .receive f → s.serve.Asked f → s.serve.running < cfg.limits.maxInflightReqs

/-! ### What is on its way out -/

section Limited

variable (cfg : Config) (fits : Envelope → Prop)

def WriterCmd.Limited : WriterCmd → Prop
  | .send (.control e) => fits e
  | .send (.streamData _ _ payload) => payload.length ≤ cfg.limits.maxChunk
  | .close _ _ => True

/-- A call that has not pushed its request yet makes a short one. -/
def Call.Limited (c : Call) : Prop :=
  ∀ id, fits (.req id c.method c.params (c.stream.map Prod.fst) c.metadata)

def Detached.Limited (item : Detached) : Prop := ∃ bytes, item.sha256 = cfg.digest bytes

/-- What the task holds is within the limits. -/
def TaskPc.Limited : TaskPc → Prop
  | .opening head => ∀ id ids, fits (.res id (cfg.outgoing head ids))
  | .replying result _ => ∀ id ids, fits (.res id (cfg.outgoing result ids))
  | .detaching result _ _ =>
    cfg.attachmentsEnabled = true ∧ ∀ id ids, fits (.res id (cfg.outgoing result ids))
  | .registering result _ detached _ =>
    (∀ id, fits (.res id result)) ∧ ∀ item ∈ detached, Detached.Limited cfg item
  | .pushingRes result detached _ =>
    (∀ id, fits (.res id result)) ∧ ∀ item ∈ detached, Detached.Limited cfg item
  | .spawning detached _ => ∀ item ∈ detached, Detached.Limited cfg item
  | .refusing error => ∀ id, fits (.err id error)
  | .pushingErr error => ∀ id, fits (.err id error)
  | .acquiring _ _ bytes => bytes.length ≤ cfg.limits.maxChunk
  | .pushingData _ _ bytes => bytes.length ≤ cfg.limits.maxChunk
  | .pushingEnd error => ∀ stream, fits (Serve.endEnvelope stream error)
  | _ => True

/-- The bytes that were acquired and not yet pushed. -/
def SenderPc.hand : SenderPc → Nat
  | .pushing _ _ chunk _ => chunk.length
  | _ => 0

structure Sender.Limited (x : Sender) : Prop where
  item : Detached.Limited cfg x.item
  hand : x.pc.hand ≤ cfg.limits.maxChunk

def ReaderPc.Limited : ReaderPc → Prop
  | .pushing e => fits e
  | _ => True

/-- One for a request that was accepted and has no task yet. -/
def ReaderPc.waiting : ReaderPc → Nat
  | .accepted _ => 1
  | _ => 0

/-- The errors of a revoked capability are short. -/
def NameLimited (name : String) : Prop :=
  (∀ id, fits (.err id (Serve.revokedError name))) ∧
    ∀ stream, fits (.sErr stream (Serve.revokedError name))

def ReplacePc.name : ReplacePc → Option String
  | .failing name _ => some name
  | .answering name _ _ => some name
  | .pushingErr name _ _ _ => some name
  | .closingGate name _ _ _ => some name
  | .aborting name _ _ => some name
  | _ => none

structure Replace.Limited (x : Replace) : Prop where
  revoked : ∀ name ∈ x.revoked, NameLimited fits name
  name : ∀ name, x.pc.name = some name → NameLimited fits name

/-- The invariant: all that the serving half is about to send is within the limits. -/
structure Serve.Limited (v : Serve) : Prop where
  tasks : ∀ t task, v.tasks.get t = some task → TaskPc.Limited cfg fits task.pc
  senders : ∀ k x, v.senders.get k = some x → Sender.Limited cfg x
  reader : v.reader.Limited fits
  replaces : ∀ n x, v.replaces.get n = some x → Replace.Limited fits x
  running : v.running + v.reader.waiting ≤ cfg.limits.maxInflightReqs

variable {cfg fits}

theorem limited_encode {e : Envelope} (h : fits e) :
    ∀ c ∈ cfg.encode e, WriterCmd.Limited cfg fits c := by
  intro c hc
  rw [mem_encode hc]
  exact h

theorem limited_none : ∀ c ∈ Emit.none.cmds, WriterCmd.Limited cfg fits c := by
  intro c hc
  cases hc

theorem detached_limited {v : Value} {ids : List Nat}
    (hlen : (blobs INLINE_BLOB_MAX v).length ≤ ids.length) :
    ∀ item ∈ (detach cfg.digest INLINE_BLOB_MAX v ids).2, Detached.Limited cfg item := by
  intro item hitem
  rw [detach_snd cfg.digest INLINE_BLOB_MAX hlen] at hitem
  obtain ⟨i, hi⟩ := List.mem_iff_getElem?.mp hitem
  rw [detachedAs, List.getElem?_zipWith] at hi
  split at hi
  · exact ⟨_, congrArg Detached.sha256 (Option.some.inj hi).symm⟩
  · cases hi

namespace Serve.Limited

variable {v v' : Serve} {env : Env} {e : Emit}

theorem credits (h : v.Limited cfg fits) (c : Credits) :
    ({ v with credits := c } : Serve).Limited cfg fits :=
  ⟨h.tasks, h.senders, h.reader, h.replaces, h.running⟩

theorem inflight (h : v.Limited cfg fits) (calls : Table Nat InflightCall) :
    ({ v with inflight := calls } : Serve).Limited cfg fits :=
  ⟨h.tasks, h.senders, h.reader, h.replaces, h.running⟩

theorem updateTask (h : v.Limited cfg fits) {t : Nat} {task : Task} {f : Task → Task}
    (ht : v.tasks.get t = some task) (hf : TaskPc.Limited cfg fits (f task).pc)
    (hrun : (f task).pc.isRunning = true → task.pc.isRunning = true) :
    (v.updateTask t f).Limited cfg fits where
  tasks := Arena.forall_update_known h.tasks ht hf
  senders := h.senders
  reader := h.reader
  replaces := h.replaces
  running := by
    have htotal := Arena.total_update ht f fun task => if task.pc.isRunning then 1 else 0
    have hone : (if (f task).pc.isRunning then 1 else 0) ≤ if task.pc.isRunning then 1 else 0 := by
      split_ifs <;> simp_all
    have hle := h.running
    show (v.tasks.update t f).total _ + v.reader.waiting ≤ _
    unfold Serve.running at hle
    omega

theorem same (h : v.Limited cfg fits) (ht : v.tasks.Rel Task.Flagged v'.tasks)
    (hs : v'.senders = v.senders) (hr : v'.reader.Limited fits)
    (hw : v'.reader.waiting ≤ v.reader.waiting)
    (hn : ∀ n x, v'.replaces.get n = some x → Replace.Limited fits x) :
    v'.Limited cfg fits where
  tasks t y hy := by
    obtain ⟨x, hx, hxy⟩ := ht.get hy
    rw [hxy.pc]
    exact h.tasks t x hx
  senders := by
    rw [hs]
    exact h.senders
  reader := hr
  replaces := hn
  running := by
    have htotal : v'.running = v.running := ht.total_eq fun x y hxy => by rw [hxy.pc]
    have hle := h.running
    omega

theorem senderPc (h : v.Limited cfg fits) {k : Nat} {pc : SenderPc}
    (hpc : pc.hand ≤ cfg.limits.maxChunk) : (v.senderPc k pc).Limited cfg fits where
  tasks := h.tasks
  senders := Arena.forall_update h.senders fun y hy => ⟨(h.senders k y hy).item, hpc⟩
  reader := h.reader
  replaces := h.replaces
  running := h.running

theorem spawn (h : v.Limited cfg fits) {items : List Detached}
    (hitems : ∀ item ∈ items, Detached.Limited cfg item) :
    ({ v with
      senders := items.foldl (fun senders item => senders.alloc ⟨item, .starting⟩) v.senders } :
        Serve).Limited cfg fits := by
  refine ⟨h.tasks, fun k x hx => ?_, h.reader, h.replaces, h.running⟩
  rcases get_spawned hx with hx | ⟨item, hitem, rfl⟩
  · exact h.senders k x hx
  · exact ⟨hitems item hitem, Nat.zero_le _⟩

theorem taskRun (h : v.Limited cfg fits) {t : Nat} {task : Task}
    (ht : v.tasks.get t = some task) (hrun : v.taskRun cfg env t task = some (v', e)) :
    v'.Limited cfg fits ∧ ∀ c ∈ e.cmds, WriterCmd.Limited cfg fits c := by
  have hpc := h.tasks t task ht
  have hrunning : task.pc.isRunning = true := by
    cases hp : task.pc with
    | ended | stopped | panicked => simp [Serve.taskRun, hp] at hrun
    | _ => rfl
  have moved {f : Task → Task} (hf : TaskPc.Limited cfg fits (f task).pc) :
      (v.updateTask t f).Limited cfg fits := h.updateTask ht hf fun _ => hrunning
  have hstep := taskStep_of_taskRun hrun
  cases hstep with
  | dispatched o hp | itemYielded gate seq b hp | itemsEnded gate seq error hp
  | itemsPanicked gate seq hp => simp [Serve.taskRun, hp] at hrun
  | stopped | refuseLate | acquireCanceled | finished => exact ⟨moved trivial, limited_none⟩
  | opened head stream hp | registered result item todo all next hp
  | acquired gate seq bytes g hp =>
    rw [hp] at hpc
    exact ⟨(moved hpc).credits _, limited_none⟩
  | replyLate result next => exact ⟨moved (by cases next <;> trivial), limited_none⟩
  | replyTaken result next pc hp _ hor =>
    rw [hp] at hpc
    refine ⟨moved ?_, limited_none⟩
    rcases hor with ⟨rfl, hon⟩ | ⟨rfl, hoff⟩
    · exact ⟨hon, hpc⟩
    · refine ⟨fun id => ?_, nofun⟩
      have hfits := hpc id []
      rwa [Config.outgoing, hoff] at hfits
  | allocated result ids next hp | registeredAll result all next hp | refuseTaken error hp =>
    rw [hp] at hpc
    exact ⟨moved hpc, limited_none⟩
  | detached result ids next d hp hlen hd =>
    rw [hp] at hpc
    subst hd
    refine ⟨moved ⟨fun id => ?_, detached_limited hlen⟩, limited_none⟩
    have hfits := hpc.2 id ids
    rwa [Config.outgoing, if_pos hpc.1] at hfits
  | pushedRes result all next hp =>
    rw [hp] at hpc
    exact ⟨moved hpc.2, limited_encode (hpc.1 task.id)⟩
  | spawned all next hp =>
    rw [hp] at hpc
    have hnext : (v.taskPc t next.pc).Limited cfg fits := moved (by cases next <;> trivial)
    exact ⟨hnext.spawn hpc, limited_none⟩
  | pushedErr error hp =>
    rw [hp] at hpc
    exact ⟨moved trivial, limited_encode (hpc task.id)⟩
  | pushedData gate seq stream bytes pc hp _ hor =>
    rw [hp] at hpc
    refine ⟨moved ?_, fun c hc => ?_⟩
    · rcases hor with ⟨rfl, -⟩ | ⟨rfl, -⟩ <;> trivial
    · rw [List.mem_singleton.mp hc]
      exact hpc
  | pushedEnd error stream hp =>
    rw [hp] at hpc
    exact ⟨moved trivial, limited_encode (hpc stream)⟩
  | closedGate stream hp =>
    refine ⟨(moved ?_).credits _, limited_none⟩
    trivial
  | left hp =>
    refine ⟨(moved ?_).inflight _, limited_none⟩
    trivial

theorem senderRun (h : v.Limited cfg fits) (hfixed : ∀ e, cfg.Fixed e → fits e)
    (hchunk : 0 < cfg.limits.maxChunk) {k : Nat} {x : Sender} (hk : v.senders.get k = some x)
    (hstep : SenderStep cfg env v k x v' e) :
    v'.Limited cfg fits ∧ ∀ c ∈ e.cmds, WriterCmd.Limited cfg fits c := by
  have hx := h.senders k x hk
  cases hstep with
  | found | gone | sentAll | acquireCanceled => exact ⟨h.senderPc (Nat.zero_le _), limited_none⟩
  | acquired gate seq rest g n _ _ hn =>
    refine ⟨(h.senderPc ?_).credits _, limited_none⟩
    rw [SenderPc.hand, List.length_take]
    omega
  | pushedData gate seq chunk rest pc hpc hor =>
    refine ⟨h.senderPc ?_, fun c hc => ?_⟩
    · rcases hor with ⟨rfl, -⟩ | ⟨rfl, -⟩ <;> exact Nat.zero_le _
    · have hhand := hx.hand
      rw [hpc] at hhand
      rw [List.mem_singleton.mp hc]
      exact hhand
  | pushedEnd =>
    obtain ⟨bytes, hsha⟩ := hx.item
    refine ⟨h.senderPc (Nat.zero_le _), limited_encode (hfixed _ ?_)⟩
    rw [hsha]
    exact .sEndAttachment _ _
  | closedGate => exact ⟨(h.senderPc (Nat.zero_le _)).credits _, limited_none⟩

theorem readerStep (h : v.Limited cfg fits) (hfixed : ∀ e, cfg.Fixed e → fits e)
    (hstep : ReaderStep cfg v v' e) :
    v'.Limited cfg fits ∧ ∀ c ∈ e.cmds, WriterCmd.Limited cfg fits c := by
  have hreader := h.reader
  rcases hstep.tasks with ⟨r, hr, rfl, rfl⟩ | ⟨htasks, -⟩
  · -- the request that was waiting gets its task
    refine ⟨⟨Arena.forall_alloc h.tasks trivial, h.senders, trivial, h.replaces, ?_⟩, limited_none⟩
    have hle := h.running
    rw [hr] at hle
    show (v.tasks.alloc r.task).total _ + 0 ≤ _
    rw [Arena.total_alloc]
    exact hle
  cases hstep with
  | pushed a ha =>
    rw [ha] at hreader
    exact ⟨h.same htasks rfl trivial (Nat.zero_le _) h.replaces, limited_encode hreader⟩
  | cancelTaken id =>
    exact ⟨h.same htasks rfl (hfixed _ (.canceled id)) (Nat.zero_le _) h.replaces, limited_none⟩
  | cancelLate id call task pc _ _ _ hor =>
    refine ⟨h.same htasks rfl ?_ ?_ h.replaces, limited_none⟩
    · rcases hor with ⟨stream, -, rfl⟩ | ⟨-, rfl⟩ <;> trivial
    · rcases hor with ⟨stream, -, rfl⟩ | ⟨-, rfl⟩ <;> exact Nat.zero_le _
  | closedGate stream =>
    exact ⟨h.same htasks rfl (hfixed _ (.streamCanceled stream)) (Nat.zero_le _) h.replaces,
      limited_none⟩
  | spawned => exact ⟨h.same htasks rfl trivial (Nat.zero_le _) h.replaces, limited_none⟩
  | inserted | skipped | gateGone =>
    exact ⟨h.same htasks rfl trivial (Nat.zero_le _) h.replaces, limited_none⟩

theorem updateReplace (h : v.Limited cfg fits) {n : Nat} {x : Replace}
    (hx : v.replaces.get n = some x) {f : Replace → Replace} (hf : Replace.Limited fits (f x)) :
    ∀ m y, (v.replaces.update n f).get m = some y → Replace.Limited fits y :=
  Arena.forall_update_known h.replaces hx hf

theorem replaceStep (h : v.Limited cfg fits) {closed : Bool} {n : Nat} {x : Replace}
    (hx : v.replaces.get n = some x) (hstep : ReplaceStep cfg closed v n x v' e) :
    v'.Limited cfg fits ∧ ∀ c ∈ e.cmds, WriterCmd.Limited cfg fits c := by
  obtain ⟨htasks, hreader, -⟩ := hstep.tasks
  obtain ⟨hrevoked, hname⟩ := h.replaces n x hx
  have hr : v'.reader.Limited fits := hreader ▸ h.reader
  have hw : v'.reader.waiting ≤ v.reader.waiting := Nat.le_of_eq (congrArg _ hreader)
  -- a step to a place that names the same capability, or none
  have moved {pc : ReplacePc} (hpc : pc.name = x.pc.name ∨ pc.name = none) :
      Replace.Limited fits { x with pc := pc } := by
    refine ⟨hrevoked, fun name hn => ?_⟩
    rcases hpc with hpc | hpc
    · exact hname name (hpc ▸ hn)
    · rw [show ({ x with pc := pc } : Replace).pc.name = none from hpc] at hn
      cases hn
  have none_or {pc pc' : ReplacePc} (hp : x.pc = pc) (h : pc'.name = pc.name) :
      pc'.name = x.pc.name ∨ pc'.name = none := .inl (by rw [hp, h])
  cases hstep with
  | checked pc hpc hor =>
    refine ⟨h.same htasks rfl hr hw (h.updateReplace hx (moved (.inr ?_))), limited_none⟩
    rcases hor with ⟨rfl, -⟩ | ⟨rfl, -⟩ <;> rfl
  | collected name names order _ hrev =>
    refine ⟨h.same htasks rfl hr hw (h.updateReplace hx ⟨fun m hm => ?_, fun m hm => ?_⟩),
      limited_none⟩
    · exact hrevoked m (hrev ▸ List.mem_cons_of_mem _ hm)
    · obtain rfl := Option.some.inj hm
      exact hrevoked name (hrev ▸ List.mem_cons_self ..)
  | revokedAll | passDone =>
    exact ⟨h.same htasks rfl hr hw (h.updateReplace hx (moved (.inr rfl))), limited_none⟩
  | taken name w rest task hpc | closedGate name stream w rest hpc | aborted name w rest hpc =>
    exact ⟨h.same htasks rfl hr hw (h.updateReplace hx (moved (none_or hpc rfl))), limited_none⟩
  | late name w rest task pc hpc _ _ hor =>
    refine ⟨h.same htasks rfl hr hw (h.updateReplace hx (moved (none_or hpc ?_))), limited_none⟩
    rcases hor with ⟨stream, -, rfl⟩ | ⟨-, rfl⟩ <;> rfl
  | answered name w rest hpc =>
    refine ⟨h.same htasks rfl hr hw (h.updateReplace hx (moved (none_or hpc rfl))), ?_⟩
    exact limited_encode ((hname name (by rw [hpc]; rfl)).1 w.1)
  | pushedErr name stream w rest hpc =>
    refine ⟨h.same htasks rfl hr hw (h.updateReplace hx (moved (none_or hpc rfl))), ?_⟩
    exact limited_encode ((hname name (by rw [hpc]; rfl)).2 stream)

theorem beside (h : v.Limited cfg fits) (hb : v.Beside v') (hr : v'.reader.Limited fits)
    (hw : v.running + v'.reader.waiting ≤ cfg.limits.maxInflightReqs) : v'.Limited cfg fits where
  tasks t y hy := by
    obtain ⟨x, hx, hxy, -⟩ := hb.tasks.get hy
    rw [hxy.pc]
    exact h.tasks t x hx
  senders := by
    rw [hb.senders]
    exact h.senders
  reader := hr
  replaces n y hy := by
    obtain ⟨x, hx, rfl | ⟨-, hpc, hrev⟩⟩ := hb.replaces.get hy
    · exact h.replaces n y hx
    · refine ⟨hrev ▸ (h.replaces n x hx).revoked, fun name hname => ?_⟩
      rcases hpc with hpc | ⟨i, hpc⟩ <;> rw [hpc] at hname <;> cases hname
  running := by
    have htotal : v'.running = v.running := hb.tasks.total_eq fun x y hxy => by rw [hxy.1.pc]
    rwa [htotal]

end Serve.Limited

namespace Shared

variable {s s' : Shared} {e : Emit}

theorem limited_serveStep (h : s.serve.Limited cfg fits) (hfixed : ∀ e, cfg.Fixed e → fits e)
    (hchunk : 0 < cfg.limits.maxChunk) {env : Env} {closed : Bool} {b : ServeAct} {v : Serve}
    (hstep : s.serve.step cfg env closed b = some (v, e))
    (hin : ∀ a, s.BringsIn cfg (.serve b) a → fits a)
    (hitem : ∀ t bytes, b = .yielded t (.bytes bytes) → bytes.length ≤ cfg.limits.maxChunk) :
    v.Limited cfg fits ∧ ∀ c ∈ e.cmds, WriterCmd.Limited cfg fits c := by
  cases b with
  | dispatched t o =>
    simp only [Serve.step] at hstep
    split at hstep
    · rename_i task ht
      unfold Serve.dispatched at hstep
      split at hstep <;> cases hstep
      rename_i hpc
      refine ⟨h.updateTask ht ?_ fun _ => by rw [hpc]; rfl, limited_none⟩
      cases o with
      | response result => exact fun id ids => hin _ (.answered t _ result id ids rfl)
      | stream head =>
        cases hs : task.stream with
        | some stream => exact fun id ids => hin _ (.answered t _ head id ids rfl)
        | none => exact fun id => hfixed _ (.undeclared id)
      | error error => exact fun id => hin _ (.refused t error id)
      | panicked => trivial
    · cases hstep
  | yielded t i =>
    simp only [Serve.step] at hstep
    split at hstep
    · rename_i task ht
      unfold Serve.yielded at hstep
      split at hstep <;> cases hstep
      rename_i hpc
      refine ⟨h.updateTask ht ?_ fun _ => by rw [hpc]; rfl, limited_none⟩
      cases i with
      | bytes b => exact hitem t b rfl
      | error error => exact fun stream => hin _ (.failed t error stream)
      | done => exact fun stream => hfixed _ (.sEnd stream)
      | panicked => trivial
    · cases hstep
  | run t =>
    simp only [Serve.step] at hstep
    split at hstep
    · exact h.taskRun ‹_› hstep
    · cases hstep
  | stop t =>
    simp only [Serve.step] at hstep
    split at hstep
    · unfold Serve.taskStop at hstep
      split_ifs at hstep
      cases hstep
      exact ⟨h.updateTask ‹_› trivial (fun hr => by cases hr), limited_none⟩
    · cases hstep
  | senderRun k =>
    simp only [Serve.step] at hstep
    split at hstep
    · exact h.senderRun hfixed hchunk ‹_› (Serve.senderStep_of_senderRun hstep)
    · cases hstep
  | readerRun => exact h.readerStep hfixed (Serve.readerStep_of_readerRun hstep)
  | replace caller capabilities =>
    simp only [Serve.step, Serve.replace] at hstep
    repeat' split at hstep
    all_goals cases hstep
    rename_i built hbuilt
    refine ⟨⟨h.tasks, h.senders, h.reader,
      Arena.forall_alloc h.replaces ⟨fun name hname => ?_, fun name hn => by cases hn⟩, h.running⟩,
      limited_none⟩
    refine ⟨fun id => ?_, fun stream => ?_⟩
    · exact hin _ (.revoked caller capabilities built name id hbuilt hname)
    · exact hin _ (.revokedStream caller capabilities built name stream hbuilt hname)
  | collect n order =>
    simp only [Serve.step] at hstep
    split at hstep
    · rename_i x hx
      have hs : Serve.ReplaceStep cfg closed s.serve n x v e := Serve.replaceStep_of_collect hstep
      exact h.replaceStep hx hs
    · cases hstep
  | replaceRun n =>
    simp only [Serve.step] at hstep
    split at hstep
    · exact h.replaceStep ‹_› (Serve.replaceStep_of_replaceRun hstep)
    · cases hstep

/-- The reader answers with what the request brings in, or accepts one for what is served. -/
theorem limited_handleRequest {id : Nat} {method : String} {params metadata : Payload}
    {stream : Option Nat}
    (hin : ∀ e, s.BringsIn cfg (.receive (.control (.req id method params stream metadata))) e →
      fits e) :
    (s.serve.handleRequest cfg id method params stream metadata).Limited fits ∧
      ((s.serve.handleRequest cfg id method params stream metadata).waiting = 0 ∨
        s.serve.Asked (.control (.req id method params stream metadata))) := by
  unfold Serve.handleRequest
  split_ifs with hannounce
  · refine ⟨?_, .inl rfl⟩
    show fits (cfg.announceAnswer id params)
    unfold Config.announceAnswer
    split
    · next error herror =>
      exact hin _ (.unreadable id method params stream metadata error hannounce herror)
    · next capabilities hok =>
      exact hin _ (.sorted id method params stream metadata capabilities hannounce hok)
  · rcases hsplit : splitMethod method with _ | nameTool
    · exact ⟨hin _ (.undotted id method params stream metadata hannounce hsplit), .inl rfl⟩
    obtain ⟨name, tool⟩ := nameTool
    cases hget : s.serve.served.byName.get name with
    | none =>
      simp only [hget]
      exact ⟨hin _ (.unserved id method params stream metadata name tool hannounce hsplit hget),
        .inl rfl⟩
    | some target =>
      simp only [hget]
      exact ⟨trivial, .inr ⟨id, method, params, stream, metadata, name, tool, rfl, hannounce,
        hsplit, by rw [hget]; rfl⟩⟩

theorem limited_handle (h : s.serve.Limited cfg fits) {f : Frame}
    (hin : ∀ e, s.BringsIn cfg (.receive f) e → fits e)
    (hroom : s.serve.Asked f → s.serve.running < cfg.limits.maxInflightReqs) :
    (s.serve.handle cfg f).Limited cfg fits := by
  have hle := h.running
  have hone (pc : ReaderPc) : pc.waiting ≤ 1 := by cases pc <;> simp [ReaderPc.waiting]
  have hreader : (s.serve.handle cfg f).reader.Limited fits ∧
      s.serve.running + (s.serve.handle cfg f).reader.waiting ≤ cfg.limits.maxInflightReqs := by
    cases f with
    | control e =>
      cases e with
      | req id method params stream metadata =>
        obtain ⟨hpc, hwaiting | hasked⟩ := limited_handleRequest hin
        · exact ⟨hpc, by show _ + (s.serve.handleRequest cfg _ _ _ _ _).waiting ≤ _; omega⟩
        · exact ⟨hpc, Nat.le_trans (Nat.add_le_add_left (hone _) _) (hroom hasked)⟩
      | cancel id =>
        simp only [Serve.handle, Serve.handleCancel]
        split
        · exact ⟨trivial, by show s.serve.running + 0 ≤ _; omega⟩
        · exact ⟨h.reader, hle⟩
      | _ => exact ⟨h.reader, hle⟩
    | streamData => exact ⟨h.reader, hle⟩
  exact h.beside (s.serve.handle_beside cfg f) hreader.1 hreader.2

end Shared

/-! ### Calls -/

structure Call.SameRequest (c c' : Call) : Prop where
  method : c'.method = c.method
  params : c'.params = c.params
  metadata : c'.metadata = c.metadata
  stream : c'.stream = c.stream

theorem Call.sameRequest_refl (c : Call) : c.SameRequest c := ⟨rfl, rfl, rfl, rfl⟩

/-- The requests of all calls are within the limits. -/
def Requests.Limited (fits : Envelope → Prop) (r : Requests) : Prop :=
  ∀ i c, r.calls.get i = some c → Call.Limited fits c

namespace Requests

variable {r r' : Requests}

theorem Limited.rel (h : r.Limited fits) (hr : r.calls.Rel Call.SameRequest r'.calls) :
    r'.Limited fits := by
  intro i c' hc' id
  obtain ⟨c, hc, hcc⟩ := hr.get hc'
  rw [hcc.method, hcc.params, hcc.stream, hcc.metadata]
  exact h i c hc id

theorem Limited.alloc (h : r.Limited fits) {c : Call} (hc : Call.Limited fits c) :
    Limited fits { r with calls := r.calls.alloc c } := Arena.forall_alloc h hc

theorem Limited.settle (h : r.Limited fits) (is : List Nat) (f : Oneshot → Oneshot) :
    (r.settle is f).Limited fits :=
  h.rel (Arena.rel_updateAll Call.sameRequest_refl fun _ => ⟨rfl, rfl, rfl, rfl⟩)

theorem Limited.update (h : r.Limited fits) {i : Nat} {f : Call → Call}
    (hf : ∀ c : Call, c.SameRequest (f c)) : (r.update i f).Limited fits :=
  h.rel (Arena.rel_update Call.sameRequest_refl fun c _ => hf c)

end Requests

theorem Client.callStep_limited {v v' : Client} {env : Env} {e : Emit} {a : CallAct}
    (h : v.requests.Limited fits) (hstep : v.callStep cfg env a = some (v', e))
    (hcall : ∀ method params metadata, a = .call method params metadata →
      ∀ id, fits (.req id method params none metadata))
    (hstreaming : ∀ method params, a = .callStreaming method params →
      ∀ id stream, fits (.req id method params (some stream) .nil)) :
    v'.requests.Limited fits ∧ ∀ c ∈ e.cmds, WriterCmd.Limited cfg fits c := by
  have moved {i : Nat} {pc : CallPc} :
      (v.requests.update i ({ · with pc := pc })).Limited fits :=
    h.update fun _ => ⟨rfl, rfl, rfl, rfl⟩
  rcases callStep_cases hstep with ⟨method, params, metadata, rfl, rfl, rfl⟩ |
    ⟨method, params, rfl, rfl, rfl⟩ | ⟨i, c, rfl, hc, hrun⟩ | ⟨i, c, rfl, -, -, rfl, rfl⟩
  · exact ⟨h.alloc (hcall method params metadata rfl), limited_none⟩
  · exact ⟨h.alloc fun id => hstreaming method params rfl id _, limited_none⟩
  · cases hrun with
    | numbered => exact ⟨h.update fun _ => ⟨rfl, rfl, rfl, rfl⟩, limited_none⟩
    | inserted =>
      have hset := Requests.Limited.settle (@moved i .pushing)
        (v.requests.pending.get c.id).toList .drop
      exact ⟨hset, limited_none⟩
    | pushed => exact ⟨moved, limited_encode (h i c hc c.id)⟩
    | unsentUnary error | unsentStream error =>
      have hset := h.settle (v.requests.pending.get c.id).toList .drop
      exact ⟨Requests.Limited.update hset fun _ => ⟨rfl, rfl, rfl, rfl⟩, limited_none⟩
    | _ => exact ⟨moved, limited_none⟩
  · exact ⟨moved, limited_none⟩

/-! ### One end -/

/-- All that an end has handed over, and will, is within the limits. -/
structure Shared.Limited (cfg : Config) (fits : Envelope → Prop) (s : Shared) : Prop where
  serve : s.serve.Limited cfg fits
  requests : s.client.requests.Limited fits
  handed : ∀ c ∈ s.out.handed, WriterCmd.Limited cfg fits c

namespace Shared

variable {s s' : Shared} {a : Act}

theorem limited_hand (h : ∀ c ∈ s.out.handed, WriterCmd.Limited cfg fits c) {cmds : List WriterCmd}
    (hcmds : ∀ c ∈ cmds, WriterCmd.Limited cfg fits c) :
    ∀ c ∈ (s.hand cmds).out.handed, WriterCmd.Limited cfg fits c := by
  intro c hc
  rcases s.hand_cases cmds with hh | hh
  · exact h c (hh ▸ hc)
  · rw [hh] at hc
    exact (List.mem_append.mp hc).elim (h c) (hcmds c)

theorem limited_of_grants (hfixed : ∀ e, cfg.Fixed e → fits e) {cmds : List WriterCmd}
    (h : ∀ c ∈ cmds, c.Grants) : ∀ c ∈ cmds, WriterCmd.Limited cfg fits c := by
  intro c hc
  cases h c hc with
  | credit x n => exact hfixed _ (.sCredit x n)
  | cancel x => exact hfixed _ (.sCancel x)

theorem Limited.step (h : s.Limited cfg fits) (hfixed : ∀ e, cfg.Fixed e → fits e)
    (hchunk : 0 < cfg.limits.maxChunk) (hstep : s.step cfg a = some s')
    (hin : ∀ e, s.BringsIn cfg a e → fits e)
    (hitem : ∀ t b, a = .serve (.yielded t (.bytes b)) → b.length ≤ cfg.limits.maxChunk)
    (hroom : ∀ f, a = .receive f → s.serve.Asked f →
      s.serve.running < cfg.limits.maxInflightReqs) : s'.Limited cfg fits := by
  have houtside (ha : a.serves = false) : s'.serve.Limited cfg fits := by
    have hout := (Shared.step_outside ha hstep).1
    refine h.serve.beside hout.beside ?_ ?_ <;> rw [hout.reader_eq]
    exacts [h.serve.reader, h.serve.running]
  -- a `Close` is no envelope
  have hclose {code : Nat} {reason : String} :
      ∀ c ∈ [WriterCmd.close code reason], WriterCmd.Limited cfg fits c := by
    intro c hc
    rw [List.mem_singleton.mp hc]
    trivial
  cases acts_of_step hstep with
  | @call b _ _ hcall =>
    obtain ⟨hr, hcmds⟩ := Client.callStep_limited h.requests hcall
      (fun method params metadata hb id => hin _ (hb ▸ .called method params metadata id))
      fun method params hb id stream => hin _ (hb ▸ .calledStreaming method params id stream)
    exact ⟨h.serve, hr, limited_hand h.handed hcmds⟩
  | stream hstream =>
    obtain ⟨hr, -, hreads⟩ := Client.streamStep_reads hstream
    refine ⟨h.serve, ?_, limited_hand h.handed (limited_of_grants hfixed hreads.grants)⟩
    show Requests.Limited fits _
    rw [withClient, hr]
    exact h.requests
  | serve hserve =>
    obtain ⟨hv, hcmds⟩ := limited_serveStep h.serve hfixed hchunk hserve hin
      fun t bytes hb => hitem t bytes (hb ▸ rfl)
    exact ⟨hv, h.requests, limited_hand h.handed hcmds⟩
  | announced _ _ hparams =>
    exact ⟨houtside rfl, h.requests.alloc fun id => hin _ (.announced _ _ id hparams), h.handed⟩
  | @receive f _ =>
    refine ⟨limited_handle h.serve hin (hroom f rfl), ?_, limited_hand h.handed ?_⟩
    · show (s.client.handle f).requests.Limited fits
      rcases s.client.handle_requests f with hr | ⟨id, result, hr⟩
      · rw [hr]
        exact h.requests
      · rw [hr]
        exact h.requests.settle (s.client.requests.pending.get id).toList (.send result)
    · unfold Client.reaction
      split
      · split_ifs
        · exact limited_encode (hfixed _ (.sCancel _))
        · exact limited_none
      · exact limited_none
  | shutdownRun _ hrun =>
    have hserve := houtside rfl
    unfold shutdownRun at hrun
    split at hrun <;> cases hrun
    case h_2 => exact ⟨hserve, h.requests.settle _ _, h.handed⟩
    case h_9 => exact ⟨hserve, h.requests, limited_hand h.handed hclose⟩
    all_goals exact ⟨hserve, h.requests, h.handed⟩
  | notify =>
    exact ⟨houtside rfl, h.requests, limited_hand h.handed (limited_encode (hin _ (.noted _ _)))⟩
  | close => exact ⟨houtside rfl, h.requests, limited_hand h.handed hclose⟩
  | announceOver | shutdown => exact ⟨houtside rfl, h.requests, h.handed⟩
  | writer hout => exact ⟨houtside rfl, h.requests, fun c hc => h.handed c (hout ▸ hc)⟩

end Shared

end Limited

theorem Shared.limited_established (cfg : Config) (fits : Envelope → Prop) (served : Served) :
    (Shared.established served).Limited cfg fits := by
  refine ⟨⟨fun t x hx => (by cases hx), fun k x hx => (by cases hx), trivial, fun n x hx => ?_,
    Nat.zero_le _⟩, fun i c hc => (by cases hc), fun c hc => by cases hc⟩
  rw [Shared.replaces_established hx]
  exact ⟨nofun, nofun⟩

/-- **The limits hold as far as the users keep them.**  Let `size` be the length of a control frame.
If the frames with nothing of the users' in them fit, and in every step the users bring in only what
makes frames that fit, items no longer than a chunk, and requests while there is room, then every
chunk and control frame handed to the writer is within the limits, and no more accepted requests run
than `max_inflight_reqs`. -/
theorem limits_respected {size : Envelope → Nat} {cfg : Config} {served : Served} {as : List Act}
    {s : Shared} (hfixed : ∀ e, cfg.Fixed e → size e ≤ cfg.limits.maxControlFrame)
    (hchunk : 0 < cfg.limits.maxChunk)
    (h : Run (Guarded (Steps (Shared.step cfg)) (Shared.WithinLimits size cfg))
      (.established served) as s) :
    (∀ stream seq payload, WriterCmd.send (.streamData stream seq payload) ∈ s.out.handed →
      payload.length ≤ cfg.limits.maxChunk) ∧
    (∀ e, WriterCmd.send (.control e) ∈ s.out.handed → size e ≤ cfg.limits.maxControlFrame) ∧
    s.serve.running ≤ cfg.limits.maxInflightReqs := by
  have hlim : s.Limited cfg (size · ≤ cfg.limits.maxControlFrame) := by
    refine h.state_invariant (I := fun s => s.Limited cfg (size · ≤ cfg.limits.maxControlFrame))
      (Shared.limited_established cfg _ served) ?_
    rintro s a s' hs ⟨hstep, hok⟩
    exact hs.step hfixed hchunk hstep hok.control hok.item hok.request
  refine ⟨fun stream seq payload hmem => hlim.handed _ hmem, fun e hmem => hlim.handed _ hmem, ?_⟩
  exact Nat.le_trans (Nat.le_add_right _ _) hlim.serve.running

/-! ### One stream -/

theorem Config.Fixed.frameLen_le {side : Side} {e : Envelope}
    (h : (Config.bare side .msgpack).Fixed e) : e.frameLen ≤ 256 := by
  cases h with
  | sCredit x n =>
    have hx := uintLen_le x
    have hn := uintLen_le n
    show 1 + (1 + (11 + ((7 + uintLen x) + ((6 + uintLen n) + 0)))) ≤ 256
    omega
  | sCancel x =>
    have hx := uintLen_le x
    show 1 + (1 + (11 + ((7 + uintLen x) + 0))) ≤ 256
    omega
  | sEnd x =>
    have hx := uintLen_le x
    show 1 + (1 + (8 + ((7 + uintLen x) + 0))) ≤ 256
    omega
  | sEndAttachment x bytes =>
    have hx := uintLen_le x
    have htrailer : (Serve.trailer (sampledDigest bytes)).value.packedLen ≤ 80 := by
      unfold sampledDigest
      split_ifs <;> decide
    show 1 + (1 + (8 + ((7 + uintLen x) +
      ((8 + (Serve.trailer (sampledDigest bytes)).value.packedLen) + 0)))) ≤ 256
    omega
  | canceled id =>
    have hid := uintLen_le id
    have he : WireError.canceled.packedLen ≤ 128 := by decide
    rw [Envelope.frameLen_err]
    omega
  | streamCanceled x =>
    have hx := uintLen_le x
    have he : WireError.canceled.packedLen ≤ 128 := by decide
    rw [Envelope.frameLen_sErr]
    omega
  | undeclared id =>
    have hid := uintLen_le id
    have he : (WireError.invalidParams
      "streaming tool requires a stream declaration").packedLen ≤ 128 := by decide
    rw [Envelope.frameLen_err]
    omega

def tailRequest : Frame := .control (.req 1 "fs.tail" .nil (some 1) .nil)

/-- The request is accepted, and the stream gives its head and an item. -/
def oneItem (head : Payload) (item : List UInt8) : List Act :=
  [.serve .readerRun, .serve .readerRun, .serve (.dispatched 0 (.stream head)), .serve (.run 0),
    .serve (.run 0), .serve (.run 0), .serve (.run 0), .serve (.run 0), .serve (.run 0),
    .serve (.yielded 0 (.bytes item)), .serve (.run 0), .serve (.run 0)]

theorem withinLimits_oneItem (a : Act) (ha : a ∈ oneItem .nil [1]) (s : Shared) :
    Shared.WithinLimits Envelope.frameLen (.bare .acceptor .msgpack) s a := by
  -- the reader and the task bring nothing in
  have quiet {b : ServeAct} (hb : b = .readerRun ∨ b = .run 0) :
      Shared.WithinLimits Envelope.frameLen (.bare .acceptor .msgpack) s (.serve b) := by
    rcases hb with rfl | rfl <;>
      exact ⟨nofun, nofun, nofun⟩
  simp only [oneItem, List.mem_cons, List.not_mem_nil, or_false] at ha
  rcases ha with rfl | rfl | rfl | rfl | rfl | rfl | rfl | rfl | rfl | rfl | rfl | rfl
  case inr.inr.inl =>
    refine ⟨fun e he => ?_, nofun, nofun⟩
    cases he with
    | answered _ _ result id ids hp =>
      obtain rfl := Option.some.inj hp
      have hid := uintLen_le id
      show 1 + (1 + (6 + ((3 + uintLen id) + 0))) ≤ 8 * 1024 * 1024
      omega
  case inr.inr.inr.inr.inr.inr.inr.inr.inr.inl =>
    refine ⟨nofun, fun t b hb => ?_, nofun⟩
    cases hb
    decide
  all_goals exact quiet (by simp)

theorem limits_respected_oneItem :
    ∃ s, Run (Guarded (Steps (Shared.step (.bare .acceptor .msgpack)))
          (Shared.WithinLimits Envelope.frameLen (.bare .acceptor .msgpack)))
        (.established (.one (.bare 0 "fs"))) (.receive tailRequest :: oneItem .nil [1]) s ∧
      s.out.handed.length = 2 ∧ s.serve.running = 1 ∧
      (∀ stream seq payload, WriterCmd.send (.streamData stream seq payload) ∈ s.out.handed →
        payload.length ≤ 256 * 1024) ∧
      (∀ e, WriterCmd.send (.control e) ∈ s.out.handed → e.frameLen ≤ 8 * 1024 * 1024) ∧
      s.serve.running ≤ 64 := by
  obtain ⟨s, hrun, hhanded, hrunning⟩ := exists_run_of_exec
    (Shared.step (.bare .acceptor .msgpack)) (.established (.one (.bare 0 "fs")))
    (.receive tailRequest :: oneItem .nil [1])
    (fun s => s.out.handed.length = 2 ∧ s.serve.running = 1) rfl
  have hfirst : Shared.WithinLimits Envelope.frameLen (.bare .acceptor .msgpack)
      (.established (.one (.bare 0 "fs"))) (.receive tailRequest) := by
    refine ⟨fun e he => ?_, nofun, fun f hf _ => (by decide)⟩
    cases he with
    | unreadable _ _ _ _ _ _ hannounce | sorted _ _ _ _ _ _ hannounce =>
      exact absurd hannounce (by decide)
    | undotted _ _ _ _ _ _ hsplit => cases hsplit
    | unserved _ _ _ _ _ name tool _ hsplit hget =>
      cases hsplit
      cases hget
  have hguarded : Run (Guarded (Steps (Shared.step (.bare .acceptor .msgpack)))
      (Shared.WithinLimits Envelope.frameLen (.bare .acceptor .msgpack)))
      (.established (.one (.bare 0 "fs"))) (.receive tailRequest :: oneItem .nil [1]) s := by
    obtain ⟨s₁, hstep, hrest⟩ := hrun.exists_of_cons
    exact .cons ⟨hstep, hfirst⟩ (hrest.guarded fun a ha s => withinLimits_oneItem a ha s)
  exact ⟨s, hguarded, hhanded, hrunning,
    limits_respected (fun e he => Nat.le_trans he.frameLen_le (by decide)) (by decide) hguarded⟩

/-- An acceptor that declared small limits. -/
def Config.tight : Config :=
  { Config.bare .acceptor .msgpack with limits := ⟨32, 4, 1, 64⟩ }

/-- A chunk longer than a chunk may be. -/
def WriterCmd.isOverChunk (limits : Limits) : WriterCmd → Bool
  | .send (.streamData _ _ payload) => limits.maxChunk < payload.length
  | _ => false

/-- A control frame longer than a control frame may be. -/
def WriterCmd.isOverControl (limits : Limits) : WriterCmd → Bool
  | .send (.control e) => limits.maxControlFrame < e.frameLen
  | _ => false

/-- None of the limits is looked at: a head, an item and a second request exceed them. -/
theorem limits_exceeded :
    ∃ s, Run (Steps (Shared.step .tight)) (.established (.one (.bare 0 "fs")))
        (.receive tailRequest ::
          oneItem ⟨.ofStr "a head of thirty-two bytes more"⟩ [1, 2, 3, 4, 5] ++
          [.receive (.control (.req 3 "fs.read" .nil none .nil)), .serve .readerRun]) s ∧
      s.out.handed.any (·.isOverChunk Config.tight.limits) = true ∧
      s.out.handed.any (·.isOverControl Config.tight.limits) = true ∧
      Config.tight.limits.maxInflightReqs < s.serve.running :=
  exists_run_of_exec (Shared.step .tight) (.established (.one (.bare 0 "fs"))) _
    (fun s => s.out.handed.any (·.isOverChunk Config.tight.limits) = true ∧
      s.out.handed.any (·.isOverControl Config.tight.limits) = true ∧
      Config.tight.limits.maxInflightReqs < s.serve.running) rfl

end Zyris.Core
