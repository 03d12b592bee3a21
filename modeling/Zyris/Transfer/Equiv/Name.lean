import Mathlib.Data.List.TakeWhile
import Zyris.Transfer.Name

/-!
# Where transfers collect their bytes

A `.part` ends in the marker of its transfer (`partName_eq`), so it is never its own destination
(`partName_ne`), and never the `.part` of a transfer with another marker
(`partName_ne_partName`).
-/

namespace Zyris.Transfer

variable {sha : Sha256} {dest dest' : List Char} {transferId transferId' : List UInt8}

theorem length_partTail : (partTail sha transferId).length = 22 := by
  simp [partTail, marker, sha.length_hex]

/-- The destination's name, cut so that the suffix fits. -/
def cutStem (sha : Sha256) (dest : List Char) (transferId : List UInt8) : List Char :=
  takeBytes (MAX_BYTES - len (partTail sha transferId)) dest

/-- What a `.part` has before its suffix: the cut name, less a character when the destination is the
cut name with the suffix. -/
def partStem (sha : Sha256) (dest : List Char) (transferId : List UInt8) : List Char :=
  if cutStem sha dest transferId ++ partTail sha transferId = dest then
    (cutStem sha dest transferId).dropLast
  else cutStem sha dest transferId

theorem partName_eq : partName sha dest transferId =
    partStem sha dest transferId ++ partTail sha transferId := by
  unfold partStem
  split_ifs with h
  · exact if_pos h
  · exact if_neg h

variable {s proposed : List Char} {c : Char} {p : Char → Bool}

theorem len_eq_length (h : ∀ c ∈ s, c.utf8Size = 1) : len s = s.length := by
  induction s with
  | nil => rfl
  | cons c s ih =>
    have hs := ih fun c hc => h c (List.mem_cons_of_mem _ hc)
    have hc := h c List.mem_cons_self
    simp only [len, List.map_cons, List.sum_cons, List.length_cons] at hs ⊢
    omega

/-- A character `safe_name` keeps wherever it stands. -/
def isPlain (c : Char) : Bool := !isSeparator c && c ≠ ':' && !isControl c && !isWhitespace c

/-- The marker is made of hexadecimal digits, which a name keeps. -/
theorem plain_of_mem_marker (hc : c ∈ marker sha transferId) :
    isPlain c = true ∧ c.utf8Size = 1 := by
  have hdigits : HEX_DIGITS.all (fun c => isPlain c && c.utf8Size = 1) = true := by decide
  have hmem : c ∈ HEX_DIGITS := sha.mem_digits _ c (List.mem_of_mem_take hc)
  simpa using List.all_eq_true.mp hdigits c hmem

/-- The suffix is 22 bytes of ASCII. -/
theorem len_partTail : len (partTail sha transferId) = 22 := by
  have hone : ∀ c ∈ partTail sha transferId, c.utf8Size = 1 := by
    intro c hc
    simp only [partTail, List.mem_cons, List.mem_append] at hc
    rcases hc with (rfl | hc) | hc
    · rfl
    · exact (plain_of_mem_marker hc).2
    · have hpart : ".part".toList.all (·.utf8Size = 1) = true := by decide
      exact of_decide_eq_true (List.all_eq_true.mp hpart c hc)
  rw [len_eq_length hone, length_partTail]

/-- **A `.part` is never its destination.** -/
theorem partName_ne : partName sha dest transferId ≠ dest := by
  rw [partName_eq, partStem]
  split_ifs with h
  · -- one character shorter, unless nothing was kept of the name
    intro hdrop
    have hlength := congrArg List.length (h.trans hdrop.symm)
    simp only [List.length_append, List.length_dropLast] at hlength
    have hnil : cutStem sha dest transferId = [] := List.length_eq_zero_iff.mp (by omega)
    rw [hnil, List.nil_append] at h
    rw [cutStem, len_partTail, ← h] at hnil
    simp [partTail, takeBytes, MAX_BYTES, Char.utf8Size] at hnil
  · exact h

theorem partName_ne_partName (h : marker sha transferId ≠ marker sha transferId') :
    partName sha dest transferId ≠ partName sha dest' transferId' := by
  rw [partName_eq, partName_eq]
  intro heq
  have htail : partTail sha transferId = partTail sha transferId' :=
    List.append_inj_right' heq (by rw [length_partTail, length_partTail])
  exact h (List.append_cancel_right (List.cons.inj htail).2)

/-! ### Names that are kept as they are -/

theorem trimEndMatches_append (h : p c = false) : trimEndMatches p (s ++ [c]) = s ++ [c] := by
  rw [trimEndMatches, List.reverse_append, List.reverse_singleton, List.singleton_append,
    List.dropWhile_cons_of_neg (by rw [h]; decide), List.reverse_cons, List.reverse_reverse]

theorem dropWhile_eq_self (h : ∀ c ∈ s, p c = false) : s.dropWhile p = s := by
  cases s with
  | nil => rfl
  | cons c s => exact List.dropWhile_cons_of_neg (by rw [h c List.mem_cons_self]; decide)

/-- A short name of plain characters that is not reserved and does not end in a dot is kept. -/
theorem safeName_eq_self (hplain : ∀ x ∈ s ++ [c], isPlain x = true) (hc : isDotOrSpace c = false)
    (hlen : len (s ++ [c]) ≤ MAX_BYTES) (hreserved : avoidsReservedNames (s ++ [c]) = s ++ [c]) :
    safeName (s ++ [c]) = s ++ [c] := by
  simp only [isPlain, Bool.and_eq_true, Bool.not_eq_true'] at hplain
  have hchunk : ((s ++ [c]).reverse.takeWhile fun x => !isSeparator x).reverse = s ++ [c] := by
    rw [List.takeWhile_eq_self_iff.mpr, List.reverse_reverse]
    intro x hx
    rw [(hplain x (List.mem_reverse.mp hx)).1.1.1]
    rfl
  have hfilter : (s ++ [c]).filter (fun x => x ≠ ':' && !isControl x) = s ++ [c] := by
    refine List.filter_eq_self.mpr fun x hx => ?_
    rw [(hplain x hx).1.1.2, (hplain x hx).1.2]
    rfl
  have htrim : trim (s ++ [c]) = s ++ [c] := by
    rw [trim, dropWhile_eq_self fun x hx => (hplain x hx).2]
    exact trimEndMatches_append (hplain c (by simp)).2
  have hends := trimEndMatches_append (s := s) hc
  have hempty : (s ++ [c]).isEmpty = false := by simp
  simp only [safeName, hchunk, hfilter, htrim, hends, hempty, hreserved, fitsLength, if_pos hlen,
    orFile, Bool.false_eq_true, if_false]

/-- The name a peer sends to have a file put where the transfer of `a` collects its bytes. -/
theorem safeName_partName : safeName (partName sha "a".toList transferId) =
    partName sha "a".toList transferId := by
  have hname : partName sha "a".toList transferId =
      ('a' :: '.' :: marker sha transferId ++ ".par".toList) ++ ['t'] := by
    have hcut : cutStem sha "a".toList transferId = "a".toList := by
      rw [cutStem, len_partTail]
      decide
    rw [partName_eq, partStem, hcut, if_neg]
    · simp [partTail]
    · simp [partTail]
  have hall : ∀ c ∈ ('a' :: '.' :: marker sha transferId ++ ".par".toList) ++ ['t'],
      isPlain c = true ∧ c.utf8Size = 1 := by
    intro c hc
    rw [List.append_assoc, List.cons_append, List.mem_cons, List.cons_append, List.mem_cons,
      List.mem_append] at hc
    rcases hc with rfl | rfl | hc | hc
    · decide
    · decide
    · exact plain_of_mem_marker hc
    · have hpart : (".par".toList ++ ['t']).all (fun c => isPlain c && c.utf8Size = 1) = true := by
        decide
      simpa using List.all_eq_true.mp hpart c hc
  rw [hname]
  refine safeName_eq_self (fun c hc => (hall c hc).1) (by decide) ?_ ?_
  · rw [len_eq_length fun c hc => (hall c hc).2]
    simp [marker, sha.length_hex, MAX_BYTES]
  -- the part before the first dot is `a`, which is not reserved
  have hreserved : (RESERVED_NAMES.any fun r => eqIgnoreAsciiCase r.toList ['a']) = false := by
    decide
  have hstem : (('a' :: '.' :: marker sha transferId ++ ".par".toList) ++ ['t']).takeWhile
      (· ≠ '.') = ['a'] := by
    simp
  simp only [avoidsReservedNames, hstem, hreserved, Bool.false_eq_true, if_false]

/-! ### One component -/

/-- None of the characters is a separator. -/
def NoSeparator (s : List Char) : Prop := ∀ c ∈ s, isSeparator c = false

/-- A character that may stand in a washed name. -/
def isClean (c : Char) : Bool := !isSeparator c && c ≠ ':' && !isControl c

theorem exists_trimmed (p : Char → Bool) (s : List Char) :
    ∃ pad, s = trimEndMatches p s ++ pad ∧ ∀ c ∈ pad, p c = true := by
  refine ⟨(s.reverse.takeWhile p).reverse, ?_, fun c hc => ?_⟩
  · rw [trimEndMatches, ← List.reverse_append, List.takeWhile_append_dropWhile,
      List.reverse_reverse]
  · exact List.mem_takeWhile_imp (List.mem_reverse.mp hc)

theorem trimEndMatches_isPrefix (p : Char → Bool) (s : List Char) : trimEndMatches p s <+: s := by
  obtain ⟨pad, hs, -⟩ := exists_trimmed p s
  exact ⟨pad, hs.symm⟩

/-- What is left of a name after its end was trimmed does not end in what was trimmed. -/
theorem exists_of_trimEndMatches_ne_nil (h : trimEndMatches p s ≠ []) :
    ∃ body c, trimEndMatches p s = body ++ [c] ∧ p c = false := by
  unfold trimEndMatches at h ⊢
  cases hdrop : s.reverse.dropWhile p with
  | nil => simp [hdrop] at h
  | cons c rest =>
    refine ⟨rest.reverse, c, by simp, ?_⟩
    have hne : s.reverse.dropWhile p ≠ [] := by
      rw [hdrop]
      exact List.cons_ne_nil c rest
    have hhead := List.head_dropWhile_not p hne
    simpa [hdrop] using hhead

theorem takeBytes_isPrefix (keep : Nat) (s : List Char) : takeBytes keep s <+: s := by
  induction s generalizing keep with
  | nil => exact List.prefix_refl _
  | cons c s ih =>
    rw [takeBytes]
    split_ifs
    · exact List.cons_prefix_cons.mpr ⟨rfl, ih _⟩
    · exact List.nil_prefix

/-- The last chunk of the name, washed and trimmed. -/
def sanitized (proposed : List Char) : List Char :=
  trimEndMatches isDotOrSpace (trim
    ((proposed.reverse.takeWhile fun c => !isSeparator c).reverse.filter
      fun c => c ≠ ':' && !isControl c))

theorem safeName_eq (proposed : List Char) : safeName proposed =
    if (sanitized proposed).isEmpty then "file".toList
    else orFile (trimEndMatches isDotOrSpace
      (fitsLength (avoidsReservedNames (sanitized proposed)))) :=
  rfl

theorem isClean_of_mem_sanitized (hc : c ∈ sanitized proposed) : isClean c = true := by
  have htrim := (trimEndMatches_isPrefix _ _).subset ((trimEndMatches_isPrefix _ _).subset hc)
  have hfilter := (List.dropWhile_sublist _).subset htrim
  have hchunk := List.mem_takeWhile_imp (List.mem_reverse.mp (List.mem_of_mem_filter hfilter))
  have hkept := (List.mem_filter.mp hfilter).2
  rw [isClean, Bool.and_assoc, hchunk, hkept]
  rfl

theorem mem_avoidsReservedNames (hc : c ∈ avoidsReservedNames s) : c ∈ s ∨ c = '_' := by
  unfold avoidsReservedNames at hc
  simp only at hc
  split_ifs at hc
  · rcases List.mem_append.mp hc with hc | hc
    · exact .inl ((List.takeWhile_sublist _).subset hc)
    · rcases List.mem_cons.mp hc with rfl | hc
      · exact .inr rfl
      · exact .inl (List.mem_of_mem_drop hc)
  · exact .inl hc

theorem mem_shortExtension (hc : c ∈ shortExtension s) : c ∈ s ∨ c = '.' := by
  unfold shortExtension at hc
  simp only at hc
  split_ifs at hc
  · rcases List.mem_cons.mp hc with rfl | hc
    · exact .inr rfl
    · have hmem := (List.takeWhile_sublist _).subset (List.mem_reverse.mp hc)
      exact .inl (List.mem_reverse.mp hmem)
  · cases hc

theorem mem_fitsLength (hc : c ∈ fitsLength s) : c ∈ s ∨ c = '.' := by
  unfold fitsLength at hc
  split_ifs at hc
  · exact .inl hc
  · rcases List.mem_append.mp hc with hc | hc
    · exact .inl ((takeBytes_isPrefix _ _).subset hc)
    · exact mem_shortExtension hc

theorem safeName_cases (proposed : List Char) :
    safeName proposed = "file".toList ∨
      (safeName proposed ≠ [] ∧ sanitized proposed ≠ [] ∧
        safeName proposed = trimEndMatches isDotOrSpace
          (fitsLength (avoidsReservedNames (sanitized proposed)))) := by
  rw [safeName_eq]
  split_ifs with hempty
  · exact .inl rfl
  · unfold orFile
    split_ifs with hcut
    · exact .inl rfl
    · exact .inr ⟨fun hnil => hcut (by rw [hnil]; rfl),
        fun hnil => hempty (by rw [hnil]; rfl), rfl⟩

theorem isClean_of_mem_safeName (hc : c ∈ safeName proposed) : isClean c = true := by
  rcases safeName_cases proposed with hfile | ⟨-, -, hname⟩
  · have hall : "file".toList.all isClean = true := by decide
    rw [hfile] at hc
    exact List.all_eq_true.mp hall c hc
  rw [hname] at hc
  rcases mem_fitsLength ((trimEndMatches_isPrefix _ _).subset hc) with hc | rfl
  · rcases mem_avoidsReservedNames hc with hc | rfl
    · exact isClean_of_mem_sanitized hc
    · rfl
  · rfl

theorem safeName_spec (proposed : List Char) :
    NoSeparator (safeName proposed) ∧
      ∃ body c, safeName proposed = body ++ [c] ∧ isDotOrSpace c = false := by
  refine ⟨fun c hc => ?_, ?_⟩
  · have hclean := isClean_of_mem_safeName hc
    rw [isClean, Bool.and_assoc, Bool.and_eq_true_iff] at hclean
    simpa using hclean.1
  · rcases safeName_cases proposed with hfile | ⟨hne, -, hname⟩
    · exact ⟨"fil".toList, 'e', hfile, rfl⟩
    · rw [hname] at hne ⊢
      exact exists_of_trimEndMatches_ne_nil hne

/-! ### A digest to evaluate with -/

/-- The last `k` hexadecimal digits of a number. -/
def hexDigits : Nat → Nat → List Char
  | 0, _ => []
  | k + 1, n => hexDigits k (n / 16) ++ [HEX_DIGITS.getD (n % 16) '0']

theorem hexDigits_spec (k n : Nat) :
    (hexDigits k n).length = k ∧ ∀ c ∈ hexDigits k n, c ∈ HEX_DIGITS := by
  induction k generalizing n with
  | zero => exact ⟨rfl, nofun⟩
  | succ k ih =>
    obtain ⟨hlen, hmem⟩ := ih (n / 16)
    refine ⟨by rw [hexDigits, List.length_append, hlen, List.length_singleton], fun c hc => ?_⟩
    rcases List.mem_append.mp hc with hc | hc
    · exact hmem c hc
    · obtain rfl := List.mem_singleton.mp hc
      have hlt : n % 16 < HEX_DIGITS.length := Nat.mod_lt n (by decide)
      rw [List.getD_eq_getElem?_getD, List.getElem?_eq_getElem hlt]
      exact List.getElem_mem hlt

/-- The digests of a few inputs, and of no bytes. -/
def sampledDigest : List UInt8 → Nat
  | [1] => 0x4bf5122f344554c53bde2ebb8cd2b7e3d1600ad631c385a5d7cce23c7785459a
  | [2] => 0xdbc1b4c900ffe48d575b5da5c638040125f65db0fe3e24494b76ea986457d986
  | [7] => 0xca358758f6d27e6cf45272937977a748fd88391db679ceda7dc7bf1f005ee879
  | [8] => 0xbeead77994cf573341ec17b58bbf7eb34d2711c993c1d976b128b3188dc1829a
  | [120] => 0x2d711642b726b04401627ca9fbac32f5c8530fb1903cc4db02258717921a4881
  | [1, 2, 3] => 0x039058c6f2c0cb492c533b0a4d14ef77cc0f78abccced5287d84a1a2011cfb81
  | _ => 0xe3b0c44298fc1c149afbf4c8996fb92427ae41e4649b934ca495991b7852b855

/-- SHA-256 on those inputs. -/
def Sha256.sampled : Sha256 where
  hex bytes := hexDigits 64 (sampledDigest bytes)
  length_hex _ := (hexDigits_spec 64 _).1
  mem_digits _ := (hexDigits_spec 64 _).2

end Zyris.Transfer
