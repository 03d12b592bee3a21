import Zyris.Transfer.Pull

/-!
# Both kinds of source serve the same bytes

Each item is the next part of what is still to come (`Items.next_cases`), so the items put together
are what there is from the offset on.  The call itself differs at offsets no file system takes:
there `lseek` fails, where bytes in memory give an empty stream.
-/

namespace Zyris.Transfer.Pull

open Proto Caps Fs

/-! ### The items of a stream -/

/-- The bytes still to come. -/
def Items.rest : Items → List UInt8
  | .iter bytes index => bytes.drop index
  | .unfold f done => if done then [] else f.file.bytes.drop f.pos

def Items.isFile : Items → Bool
  | .iter _ _ => false
  | .unfold _ _ => true

/-- A stream ends when nothing is left; until then each item is the next part of it, a full chunk
without reads. -/
theorem Items.next_cases (items : Items) (n : Nat) :
    (items.rest = [] ∧ (items.next (.short n)).1 = none) ∨
    ∃ chunk items', items.next (.short n) = (some (.ok chunk), items') ∧
      items.rest = chunk ++ items'.rest ∧ chunk ≠ [] ∧ chunk.length ≤ CHUNK_SIZE ∧
      items'.isFile = items.isFile ∧
      (items.isFile = true ∨ chunk.length = min CHUNK_SIZE items.rest.length) := by
  have hpos : 0 < CHUNK_SIZE := by decide
  cases items with
  | iter bytes index =>
    by_cases hindex : index < bytes.length
    · right
      refine ⟨_, _, if_pos hindex, ?_, ?_, ?_, rfl, .inr ?_⟩
      · -- past the last chunk there is nothing to drop
        show bytes.drop index = _ ++ bytes.drop (index + CHUNK_SIZE)
        rcases Nat.le_total (index + CHUNK_SIZE) bytes.length with hfull | hlast
        · rw [Nat.min_eq_left hfull, Nat.add_sub_cancel_left, ← List.drop_drop,
            List.take_append_drop]
        · rw [Nat.min_eq_right hlast, List.drop_eq_nil_of_le hlast, List.append_nil,
            List.take_of_length_le (by rw [List.length_drop])]
      · apply List.ne_nil_of_length_pos
        rw [List.length_take, List.length_drop]
        omega
      · rw [List.length_take]
        omega
      · show _ = min CHUNK_SIZE (bytes.drop index).length
        rw [List.length_take, List.length_drop]
        omega
    · left
      exact ⟨List.drop_eq_nil_of_le (Nat.le_of_not_lt hindex), by rw [next, if_neg hindex]⟩
  | unfold f done =>
    cases done with
    | true => exact .inl ⟨rfl, rfl⟩
    | false =>
      have hlen : (f.file.bytes.drop f.pos).length = f.file.bytes.length - f.pos :=
        List.length_drop
      show (f.file.bytes.drop f.pos = [] ∧ _) ∨ _
      simp only [next, OpenFile.read, Bool.false_eq_true, if_false]
      cases hread : (f.file.bytes.drop f.pos).take
          (min (max 1 n) (min CHUNK_SIZE (f.file.bytes.length - f.pos))) with
      | nil =>
        -- nothing is read only where there is nothing
        have hnil := congrArg List.length hread
        rw [List.length_take, List.length_nil] at hnil
        exact .inl ⟨List.length_eq_zero_iff.mp (by omega), rfl⟩
      | cons b buf =>
        right
        have hchunk := congrArg List.length hread
        rw [List.length_take] at hchunk
        refine ⟨b :: buf, _, rfl, ?_, List.cons_ne_nil b buf, by omega, rfl, .inl rfl⟩
        show f.file.bytes.drop f.pos = _ ++ f.file.bytes.drop (f.pos + _)
        rw [← hread, ← List.drop_drop, List.take_append_drop]

/-- **The items of a stream** that is polled to its end, however the reads fall. -/
theorem Items.collect_spec {items : Items} {answers : List Nat}
    (h : items.rest.length < answers.length) :
    ∃ chunks : List (List UInt8), items.collect (answers.map .short) = chunks.map .ok ∧
      chunks.flatten = items.rest ∧ ∀ c ∈ chunks, c ≠ [] ∧ c.length ≤ CHUNK_SIZE := by
  induction answers generalizing items with
  | nil => exact absurd h (Nat.not_lt_zero _)
  | cons n answers ih =>
    rw [List.map_cons, collect]
    rcases items.next_cases n with ⟨hrest, hnone⟩ | ⟨chunk, items', hnext, hrest, hne, hle, -⟩
    · refine ⟨[], ?_, by rw [hrest]; rfl, by simp⟩
      generalize items.next (.short n) = result at hnone
      obtain ⟨item, after⟩ := result
      obtain rfl : item = none := hnone
      rfl
    · have hpos := List.length_pos_iff.mpr hne
      rw [hrest, List.length_append, List.length_cons] at h
      have hless : items'.rest.length < answers.length := by omega
      obtain ⟨chunks, hcollect, hflatten, hchunks⟩ := ih hless
      refine ⟨chunk :: chunks, ?_, ?_, ?_⟩
      · rw [hnext, List.map_cons]
        simp only [hcollect]
      · rw [List.flatten_cons, hflatten, hrest]
      · rw [List.forall_mem_cons]
        exact ⟨⟨hne, hle⟩, hchunks⟩

/-! ### The streams of the system of retries -/

/-- A stream by the bytes it has yet to give. -/
def Items.chunks (items : Items) : Chunks := ⟨items.isFile, items.rest⟩

/-- A stream ends where that of the system of retries does. -/
theorem Items.next_ended {items : Items} {n : Nat} (h : (items.next (.short n)).1 = none)
    (m : Nat) : items.chunks.next m = some (none, items.chunks) := by
  rcases items.next_cases n with ⟨hrest, -⟩ | ⟨chunk, items', hnext, -⟩
  · exact if_pos hrest
  · rw [hnext] at h
    cases h

/-- Each item is one the system of retries gives. -/
theorem Items.next_refines {items items' : Items} {n : Nat} {chunk : List UInt8}
    (h : items.next (.short n) = (some (.ok chunk), items')) :
    items.chunks.next chunk.length = some (some chunk, items'.chunks) := by
  rcases items.next_cases n with ⟨-, hnone⟩ | ⟨chunk', after, hnext, hrest, hne, hle, hkind, hfull⟩
  · rw [h] at hnone
    cases hnone
  rw [h] at hnext
  cases hnext
  have hpos := List.length_pos_iff.mpr hne
  have hlen := congrArg List.length hrest
  rw [List.length_append] at hlen
  have hsome : items.rest ≠ [] := by
    apply List.ne_nil_of_length_pos
    omega
  have hguard : 0 < chunk.length ∧ chunk.length ≤ min CHUNK_SIZE items.rest.length ∧
      (items.isFile = true ∨ chunk.length = min CHUNK_SIZE items.rest.length) :=
    ⟨hpos, by omega, hfull⟩
  have htake : items.rest.take chunk.length = chunk := by rw [hrest, List.take_left]
  have hdrop : items.rest.drop chunk.length = items'.rest := by rw [hrest, List.drop_left]
  simp only [Chunks.next, chunks, if_neg hsome, if_pos hguard, htake, hdrop, hkind]

/-- A source with the content its file has. -/
def Source.withContent (content : PathBuf → List UInt8) : Source → Transfer.Source
  | .path file => .path (content file)
  | .bytes data => .bytes data

def ToSend.withContent (content : PathBuf → List UInt8) (p : ToSend) : Transfer.ToSend :=
  ⟨p.transferId, p.source.withContent content, p.size, p.sha256⟩

theorem drop_min_length {α : Type*} (l : List α) (n : Nat) :
    l.drop (min n l.length) = l.drop n := by
  rcases Nat.le_total n l.length with h | h
  · rw [Nat.min_eq_left h]
  · rw [Nat.min_eq_right h, List.drop_length, List.drop_eq_nil_of_le h]

section Pull

variable {openFile : PathBuf → Except HostError HostFile} {pending : List ToSend}
  {transferId : List UInt8} {toSend : ToSend} {offset : UInt64}

theorem pull_of_bytes (hfind : pending.find? (fun p => p.transferId = transferId) = some toSend)
    {bytes : List UInt8} (hsource : toSend.source = .bytes bytes) :
    pull openFile pending transferId offset =
      .ok (⟨toSend.size, toSend.sha256⟩, .iter bytes (min offset.toNat bytes.length)) := by
  unfold pull
  simp only [hfind, hsource]

theorem pull_of_path (hfind : pending.find? (fun p => p.transferId = transferId) = some toSend)
    {path : PathBuf} (hsource : toSend.source = .path path) {file : HostFile}
    (hopen : openFile path = .ok file) :
    pull openFile pending transferId offset =
      if offset.toNat ≤ file.maxOffset then
        .ok (⟨toSend.size, toSend.sha256⟩, .unfold ⟨file, offset.toNat⟩ false)
      else .error (ioError ⟨.other, "Invalid argument (os error 22)"⟩) := by
  unfold pull
  simp only [hfind, hsource, hopen, Except.mapError, bind, Except.bind, OpenFile.seek]
  by_cases hpos : 0 < offset
  · rw [if_pos hpos]
    split_ifs <;> rfl
  · -- at the start there is nothing to seek
    have hzero : offset.toNat = 0 := by
      exact Nat.eq_zero_of_not_pos hpos
    rw [if_neg hpos, hzero, if_pos (Nat.zero_le _)]

theorem pull_of_unopened (hfind : pending.find? (fun p => p.transferId = transferId) = some toSend)
    {path : PathBuf} (hsource : toSend.source = .path path) {e : HostError}
    (hopen : openFile path = .error e) :
    pull openFile pending transferId offset = .error (ioError e) := by
  unfold pull
  simp only [hfind, hsource, hopen, Except.mapError, bind, Except.bind]

/-- **`pull` answers as in the system of retries**, when its file can be opened. -/
theorem pull_refines {content : PathBuf → List UInt8}
    (hcontent : ∀ path file, openFile path = .ok file → file.bytes = content path)
    {head : PullHead} {items : Items}
    (h : pull openFile pending transferId offset = .ok (head, items)) :
    Transfer.pull (pending.map (ToSend.withContent content)) transferId offset.toNat =
      .ok (head, items.chunks) := by
  have hmap : (pending.map (ToSend.withContent content)).find?
      (fun p => p.transferId = transferId) =
        (pending.find? fun p => p.transferId = transferId).map (ToSend.withContent content) :=
    List.find?_map
  rw [Transfer.pull, hmap]
  cases hfind : pending.find? fun p => p.transferId = transferId with
  | none =>
    unfold pull at h
    simp only [hfind] at h
    cases h
  | some toSend =>
    rw [Option.map_some]
    cases hsource : toSend.source with
    | bytes bytes =>
      rw [pull_of_bytes hfind hsource] at h
      cases h
      simp only [ToSend.withContent, hsource, Source.withContent, Transfer.Source.chunks,
        Items.chunks, Items.isFile, Items.rest, drop_min_length]
    | path path =>
      rcases hopen : openFile path with _ | file
      · rw [pull_of_unopened hfind hsource hopen] at h
        cases h
      rw [pull_of_path hfind hsource hopen] at h
      split_ifs at h
      cases h
      simp only [ToSend.withContent, hsource, Source.withContent, Transfer.Source.chunks,
        ← hcontent path file hopen]
      rfl

end Pull

/-! ### The two kinds of source -/

/-- The call returns the head, and its stream gives the bytes and ends, in chunks neither empty nor
too long, however the reads fall. -/
def Serves (result : Except WireError (PullHead × Items)) (head : PullHead) (bytes : List UInt8) :
    Prop :=
  ∃ items, result = .ok (head, items) ∧ ∀ answers : List Nat, bytes.length < answers.length →
    ∃ chunks : List (List UInt8), items.collect (answers.map .short) = chunks.map .ok ∧
      chunks.flatten = bytes ∧ ∀ c ∈ chunks, c ≠ [] ∧ c.length ≤ CHUNK_SIZE

theorem serves_of_rest {head : PullHead} {items : Items} {bytes : List UInt8}
    (h : items.rest = bytes) : Serves (.ok (head, items)) head bytes := by
  refine ⟨items, rfl, fun answers hlen => ?_⟩
  rw [← h] at hlen ⊢
  exact Items.collect_spec hlen

theorem find?_append_singleton {pending : List ToSend} (toSend : ToSend)
    (h : ∀ p ∈ pending, p.transferId ≠ toSend.transferId) :
    (pending ++ [toSend]).find? (fun p => p.transferId = toSend.transferId) = some toSend := by
  rw [List.find?_append, List.find?_eq_none.mpr (by simpa using h)]
  simp

/-- **Both kinds of source serve the same bytes, at the offsets the file system takes.**  From a
file and from bytes in memory of the same content, under a fresh id, `pull` streams the content from
the offset on, with the full size and digest, exactly when the offset is one that can be sought
to. -/
theorem pull_same_bytes_iff (openFile : PathBuf → Except HostError HostFile) (path : PathBuf)
    (file : HostFile) (hopen : openFile path = .ok file) (pending pending' : List ToSend)
    (transferId : List UInt8) (hfresh : ∀ p ∈ pending, p.transferId ≠ transferId)
    (hfresh' : ∀ p ∈ pending', p.transferId ≠ transferId) (sha256 : List Char)
    (offset : UInt64) :
    (Serves (pull openFile (offerFile pending transferId path file.bytes.length sha256) transferId
        offset) ⟨file.bytes.length, sha256⟩
        (file.bytes.drop (min offset.toNat file.bytes.length)) ∧
      Serves (pull openFile (offerBytes pending' transferId file.bytes sha256) transferId offset)
        ⟨file.bytes.length, sha256⟩ (file.bytes.drop (min offset.toNat file.bytes.length))) ↔
    offset.toNat ≤ file.maxOffset := by
  have hpath : pull openFile (offerFile pending transferId path file.bytes.length sha256) transferId
      offset = if offset.toNat ≤ file.maxOffset then
        .ok (⟨file.bytes.length, sha256⟩, .unfold ⟨file, offset.toNat⟩ false)
      else .error (ioError ⟨.other, "Invalid argument (os error 22)"⟩) :=
    pull_of_path (find?_append_singleton ⟨_, .path path, _, _⟩ hfresh) rfl hopen
  have hbytes : pull openFile (offerBytes pending' transferId file.bytes sha256) transferId offset =
      .ok (⟨file.bytes.length, sha256⟩,
        .iter file.bytes (min offset.toNat file.bytes.length)) :=
    pull_of_bytes (find?_append_singleton ⟨_, .bytes file.bytes, _, _⟩ hfresh') rfl
  rw [hpath, hbytes]
  constructor
  · rintro ⟨⟨items, hok, -⟩, -⟩
    split_ifs at hok with hoffset
    exact hoffset
  · intro hoffset
    rw [if_pos hoffset]
    exact ⟨serves_of_rest (drop_min_length _ _).symm, serves_of_rest rfl⟩

def threeBytes : HostFile := ⟨[1, 2, 3], 2 ^ 63 - 1, by decide, by decide⟩

theorem pull_same_bytes_iff_pastEnd :
    Serves (pull (fun _ => .ok threeBytes) (offerFile [] [7] .ofRoot 3 ['d']) [7] 5) ⟨3, ['d']⟩ [] ∧
      Serves (pull (fun _ => .ok threeBytes) (offerBytes [] [7] [1, 2, 3] ['d']) [7] 5)
        ⟨3, ['d']⟩ [] :=
  (pull_same_bytes_iff (fun _ => .ok threeBytes) .ofRoot threeBytes rfl [] [] [7] (by simp)
    (by simp) ['d'] 5).mpr (by decide)

/-- At an offset that is negative as an `i64`, the call fails for a file and gives an empty stream
otherwise. -/
theorem pull_differs_at_offset :
    pull (fun _ => .ok threeBytes) (offerFile [] [7] .ofRoot 3 ['d']) [7] 0x8000000000000000 =
        .error (.new .internal "Invalid argument (os error 22)") ∧
      Serves (pull (fun _ => .ok threeBytes) (offerBytes [] [7] [1, 2, 3] ['d']) [7]
        0x8000000000000000) ⟨3, ['d']⟩ [] := by
  constructor
  · rw [pull_of_path rfl rfl rfl, if_neg (by decide)]
    rfl
  · rw [pull_of_bytes rfl rfl]
    exact serves_of_rest (by decide)

end Zyris.Transfer.Pull
