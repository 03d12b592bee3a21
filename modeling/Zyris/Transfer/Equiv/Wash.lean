import Mathlib.Tactic.Set
import Zyris.Transfer.Equiv.Name

/-!
# What a washed name is

`safeName` gives one component of a path that fits the file system, but it may give a device name:
`avoids_reserved_names` looks at the name before it is cut to its length, and what is cut off may
leave a reserved name followed by spaces and dots, which the second trimming takes away (`Padded`).
-/

namespace Zyris.Transfer

/-! ### Lengths -/

theorem len_append (s t : List Char) : len (s ++ t) = len s + len t := by
  simp [len]

theorem len_cons (c : Char) (s : List Char) : len (c :: s) = c.utf8Size + len s := by
  simp [len]

variable {s t stem : List Char} {c d : Char} {p : Char → Bool}

theorem len_le_of_isPrefix (h : s <+: t) : len s ≤ len t := by
  obtain ⟨rest, rfl⟩ := h
  rw [len_append]
  exact Nat.le_add_right _ _

theorem len_takeBytes_le (keep : Nat) (s : List Char) : len (takeBytes keep s) ≤ keep := by
  induction s generalizing keep with
  | nil => exact Nat.zero_le _
  | cons c s ih =>
    rw [takeBytes]
    split_ifs with hc
    · have hrest := ih (keep - c.utf8Size)
      rw [len_cons]
      omega
    · exact Nat.zero_le _

/-- What is cut is cut at the last character that fits. -/
theorem lt_len_takeBytes {keep : Nat} (h : keep < len s) : keep < len (takeBytes keep s) + 4 := by
  induction s generalizing keep with
  | nil => exact absurd h (Nat.not_lt_zero _)
  | cons c s ih =>
    have hsize := c.utf8Size_le_four
    rw [len_cons] at h
    rw [takeBytes]
    split_ifs with hc
    · have hrest : keep - c.utf8Size < len (takeBytes (keep - c.utf8Size) s) + 4 :=
        ih (by omega)
      rw [len_cons]
      omega
    · show keep < 0 + 4
      omega

theorem len_shortExtension_lt (s : List Char) : len (shortExtension s) < 16 := by
  unfold shortExtension
  simp only
  split_ifs with h
  · exact h.2
  · exact (by decide : 0 < 16)

theorem len_fitsLength_le (s : List Char) : len (fitsLength s) ≤ MAX_BYTES := by
  unfold fitsLength
  split_ifs with h
  · exact h
  · have hext := len_shortExtension_lt s
    have hstem := len_takeBytes_le (MAX_BYTES - len (shortExtension s)) s
    rw [len_append]
    unfold MAX_BYTES at hstem ⊢
    omega

/-- **A washed name is a safe single component**: it is not empty, fits in 255 bytes, has no
separator, colon or control character, does not end in a dot or a space, and is neither `.` nor
`..`. -/
theorem safeName_safe (proposed : List Char) :
    safeName proposed ≠ [] ∧ len (safeName proposed) ≤ 255 ∧
      (∀ c ∈ safeName proposed, c ≠ '/' ∧ c ≠ '\\' ∧ c ≠ ':' ∧ isControl c = false) ∧
      (∀ body, safeName proposed ≠ body ++ ['.'] ∧ safeName proposed ≠ body ++ [' ']) ∧
      safeName proposed ≠ ['.'] ∧ safeName proposed ≠ ['.', '.'] := by
  obtain ⟨-, body, last, hname, hlast⟩ := safeName_spec proposed
  have hends (front : List Char) (d : Char) (hd : isDotOrSpace d = true) :
      safeName proposed ≠ front ++ [d] := by
    intro heq
    rw [hname] at heq
    obtain rfl := (List.append_inj' heq rfl).2 |> List.cons.inj |>.1
    rw [hd] at hlast
    cases hlast
  refine ⟨?_, ?_, fun c hc => ?_, fun front => ⟨hends front '.' rfl, hends front ' ' rfl⟩,
    hends [] '.' rfl, hends ['.'] '.' rfl⟩
  · rw [hname]
    exact List.append_ne_nil_of_right_ne_nil _ (List.cons_ne_nil _ _)
  · rcases safeName_cases proposed with hfile | ⟨-, -, hwashed⟩
    · rw [hfile]
      decide
    · rw [hwashed]
      exact Nat.le_trans (len_le_of_isPrefix (trimEndMatches_isPrefix _ _)) (len_fitsLength_le _)
  · have hclean := isClean_of_mem_safeName hc
    simp only [isClean, isSeparator, Bool.and_eq_true, Bool.not_eq_true', Bool.or_eq_false_iff,
      decide_eq_false_iff_not, decide_eq_true_eq] at hclean
    exact ⟨hclean.1.1.1, hclean.1.1.2, hclean.1.2, hclean.2⟩

/-! ### Device names -/

/-- The part before the first dot. -/
def stemOf (name : List Char) : List Char := name.takeWhile (· ≠ '.')

/-- A device name of Windows, in any case. -/
def isReserved (stem : List Char) : Bool :=
  RESERVED_NAMES.any fun r => eqIgnoreAsciiCase r.toList stem

/-- A reserved name, spaces and dots fill the 255 bytes that are kept. -/
def Padded (name : List Char) : Prop :=
  MAX_BYTES < len name ∧ shortExtension name = [] ∧
    ∃ stem pad, isReserved stem = true ∧ takeBytes MAX_BYTES name = stem ++ ' ' :: pad ∧
      ∀ c ∈ pad, isDotOrSpace c = true

theorem exists_of_isReserved (h : isReserved stem = true) :
    ∃ r ∈ RESERVED_NAMES, r.toList.map toAsciiLowercase = stem.map toAsciiLowercase := by
  obtain ⟨r, hr, heq⟩ := List.any_eq_true.mp h
  exact ⟨r, hr, of_decide_eq_true heq⟩

theorem notMem_of_isReserved (h : isReserved stem = true)
    (hc : RESERVED_NAMES.all (fun r => toAsciiLowercase c ∉ r.toList.map toAsciiLowercase) = true) :
    c ∉ stem := by
  intro hmem
  obtain ⟨r, hr, heq⟩ := exists_of_isReserved h
  have hlower : toAsciiLowercase c ∈ stem.map toAsciiLowercase := List.mem_map_of_mem hmem
  rw [← heq] at hlower
  exact of_decide_eq_true (List.all_eq_true.mp hc r hr) hlower

theorem length_of_isReserved (h : isReserved stem = true) : 0 < stem.length ∧ stem.length ≤ 4 := by
  obtain ⟨r, hr, heq⟩ := exists_of_isReserved h
  have hall : RESERVED_NAMES.all (fun r => 0 < r.toList.length ∧ r.toList.length ≤ 4) = true := by
    decide
  have hlength := congrArg List.length heq
  rw [List.length_map, List.length_map] at hlength
  rw [← hlength]
  exact of_decide_eq_true (List.all_eq_true.mp hall r hr)

theorem underscore_notMem (h : isReserved stem = true) : '_' ∉ stem :=
  notMem_of_isReserved h (by decide)

theorem space_notMem (h : isReserved stem = true) : ' ' ∉ stem :=
  notMem_of_isReserved h (by decide)

theorem dot_notMem (h : isReserved stem = true) : '.' ∉ stem :=
  notMem_of_isReserved h (by decide)

theorem stemOf_append (s t : List Char) :
    stemOf (s ++ t) = if '.' ∈ s then stemOf s else s ++ stemOf t := by
  induction s with
  | nil => rfl
  | cons c s ih =>
    by_cases hc : c = '.'
    · rw [if_pos (by simp [hc])]
      simp [stemOf, hc]
    have hmem : '.' ∈ c :: s ↔ '.' ∈ s := by simp [Ne.symm hc]
    have hcons (u : List Char) : stemOf (c :: u) = c :: stemOf u := by simp [stemOf, hc]
    rw [List.cons_append, hcons, hcons, ih]
    simp only [hmem]
    split_ifs
    · rfl
    · rfl

theorem dot_notMem_stemOf (name : List Char) : '.' ∉ stemOf name := by
  intro h
  simpa using List.mem_takeWhile_imp h

theorem stemOf_eq_self (h : '.' ∉ s) : stemOf s = s := by
  have happend := stemOf_append s []
  rwa [if_neg h, List.append_nil, show stemOf [] = [] from rfl, List.append_nil] at happend

/-- The rewriting of `avoids_reserved_names` works. -/
theorem isReserved_stemOf_avoidsReservedNames (name : List Char) :
    isReserved (stemOf (avoidsReservedNames name)) = false := by
  by_cases h : isReserved (stemOf name) = true
  · have heq : avoidsReservedNames name =
        stemOf name ++ '_' :: name.drop (stemOf name).length := if_pos h
    by_contra hres
    refine underscore_notMem (Bool.not_eq_false _ ▸ hres) ?_
    rw [heq, stemOf_append, if_neg (dot_notMem_stemOf name)]
    simp [stemOf]
  · have heq : avoidsReservedNames name = name := if_neg h
    rw [heq]
    simpa using h

theorem avoidsReservedNames_concat (body : List Char) (hc : isDotOrSpace c = false) :
    ∃ front d, avoidsReservedNames (body ++ [c]) = front ++ [d] ∧ isDotOrSpace d = false := by
  unfold avoidsReservedNames
  simp only
  split_ifs
  · generalize (body ++ [c]).takeWhile (· ≠ '.') = stem
    rcases List.eq_nil_or_concat ((body ++ [c]).drop stem.length) with hnil | ⟨rest, d, hrest⟩
    · rw [hnil]
      exact ⟨stem, '_', rfl, rfl⟩
    rw [List.concat_eq_append] at hrest
    have hlast := congrArg List.getLast? hrest
    rw [List.getLast?_concat, List.getLast?_drop, if_neg, List.getLast?_concat] at hlast
    · obtain rfl := Option.some.inj hlast
      exact ⟨stem ++ '_' :: rest, c, by rw [hrest]; simp, hc⟩
    · intro hle
      rw [List.drop_eq_nil_of_le hle] at hrest
      simp at hrest
  · exact ⟨body, c, rfl, hc⟩

theorem len_le_four_mul (s : List Char) : len s ≤ 4 * s.length := by
  induction s with
  | nil => exact Nat.le_refl 0
  | cons c s ih =>
    have hsize := c.utf8Size_le_four
    rw [len_cons, List.length_cons]
    omega

/-- `fits_length` leaves all of the name, what fits before its extension, or what fits. -/
theorem fitsLength_cases (front : List Char) (hd : isDotOrSpace d = false) :
    fitsLength (front ++ [d]) = front ++ [d] ∨
    (∃ stem ext, fitsLength (front ++ [d]) = stem ++ '.' :: (ext ++ [d]) ∧
      stem <+: front ++ [d] ∧ 4 < stem.length) ∨
    (MAX_BYTES < len (front ++ [d]) ∧ shortExtension (front ++ [d]) = [] ∧
      fitsLength (front ++ [d]) = takeBytes MAX_BYTES (front ++ [d])) := by
  by_cases hlen : len (front ++ [d]) ≤ MAX_BYTES
  · exact .inl (if_pos hlen)
  right
  have hcut : fitsLength (front ++ [d]) =
      takeBytes (MAX_BYTES - len (shortExtension (front ++ [d]))) (front ++ [d]) ++
        shortExtension (front ++ [d]) := if_neg hlen
  have hlt := Nat.lt_of_not_le hlen
  by_cases hext : shortExtension (front ++ [d]) = []
  · refine .inr ⟨hlt, hext, ?_⟩
    rw [hcut, hext, List.append_nil]
    rfl
  left
  -- the extension ends where the name does
  have hdot : d ≠ '.' := by
    rintro rfl
    cases hd
  have hends : ∃ ext, shortExtension (front ++ [d]) = '.' :: (ext ++ [d]) := by
    unfold shortExtension at hext ⊢
    simp only at hext ⊢
    split_ifs at hext ⊢ with hshort
    · refine ⟨(front.reverse.takeWhile (· ≠ '.')).reverse, ?_⟩
      simp [hdot]
    · exact absurd rfl hext
  obtain ⟨ext, hends⟩ := hends
  have hshort := len_shortExtension_lt (front ++ [d])
  rw [hends] at hcut hshort
  refine ⟨_, ext, hcut, takeBytes_isPrefix _ _, ?_⟩
  have hkept := lt_len_takeBytes
    (Nat.lt_of_le_of_lt (Nat.sub_le MAX_BYTES (len ('.' :: (ext ++ [d])))) hlt)
  have hfour := len_le_four_mul
    (takeBytes (MAX_BYTES - len ('.' :: (ext ++ [d]))) (front ++ [d]))
  unfold MAX_BYTES at hkept hfour ⊢
  omega

theorem stemOf_of_isPrefix (h : s <+: t) (hdot : '.' ∈ s) : stemOf s = stemOf t := by
  obtain ⟨rest, rfl⟩ := h
  rw [stemOf_append, if_pos hdot]

/-- Whatever is cut off a rewritten name, a device name comes only of one that is padded. -/
theorem padded_of_isReserved {front : List Char} (hd : isDotOrSpace d = false)
    (hstem : isReserved (stemOf (front ++ [d])) = false)
    (h : isReserved (stemOf (trimEndMatches isDotOrSpace (fitsLength (front ++ [d])))) = true) :
    Padded (front ++ [d]) := by
  rcases fitsLength_cases front hd with hall | ⟨stem, ext, hfits, hpre, hlong⟩ |
    ⟨hlen, hext, hfits⟩
  · rw [hall, trimEndMatches_append hd, hstem] at h
    cases h
  · -- the part before the first dot is that of the name, or is too long
    have hsame : stem ++ '.' :: (ext ++ [d]) = (stem ++ '.' :: ext) ++ [d] := by simp
    rw [hfits, hsame, trimEndMatches_append hd, ← hsame, stemOf_append] at h
    split_ifs at h with hdot
    · rw [stemOf_of_isPrefix hpre hdot, hstem] at h
      cases h
    · have hlength := (length_of_isReserved h).2
      rw [List.length_append] at hlength
      omega
  · rw [hfits] at h
    obtain ⟨pad, hkept, hpad⟩ := exists_trimmed isDotOrSpace (takeBytes MAX_BYTES (front ++ [d]))
    set kept := trimEndMatches isDotOrSpace (takeBytes MAX_BYTES (front ++ [d])) with hkept_def
    have hpre : kept <+: front ++ [d] :=
      (trimEndMatches_isPrefix _ _).trans (takeBytes_isPrefix _ _)
    by_cases hdot : '.' ∈ kept
    · rw [stemOf_of_isPrefix hpre hdot, hstem] at h
      cases h
    rw [stemOf_eq_self hdot] at h
    cases pad with
    | nil =>
      -- far too much is kept
      have hfour := len_le_four_mul kept
      have hshort := (length_of_isReserved h).2
      have hcut := lt_len_takeBytes hlen
      rw [hkept, List.append_nil] at hcut
      unfold MAX_BYTES at hcut
      omega
    | cons c pad =>
      have hc : c = '.' ∨ c = ' ' := by simpa [isDotOrSpace] using hpad c List.mem_cons_self
      rcases hc with rfl | rfl
      · -- then the name had been reserved before it was cut
        have hpre' : kept ++ '.' :: pad <+: front ++ [d] := hkept ▸ takeBytes_isPrefix _ _
        have hmem : '.' ∈ kept ++ '.' :: pad := by simp
        rw [← stemOf_of_isPrefix hpre' hmem, stemOf_append, if_neg hdot] at hstem
        rw [show stemOf ('.' :: pad) = [] from rfl, List.append_nil, h] at hstem
        cases hstem
      · exact ⟨hlen, hext, kept, pad, h, hkept, fun x hx => hpad x (List.mem_cons_of_mem _ hx)⟩

/-- A name that was rewritten is not padded. -/
theorem avoidsReservedNames_of_padded {name : List Char}
    (h : Padded (avoidsReservedNames name)) : avoidsReservedNames name = name := by
  by_cases hres : isReserved (stemOf name) = true
  · have heq : avoidsReservedNames name =
        stemOf name ++ '_' :: name.drop (stemOf name).length := if_pos hres
    obtain ⟨-, -, stem, pad, hstem, hkept, -⟩ := h
    obtain ⟨rest, hrest⟩ := hkept ▸ takeBytes_isPrefix MAX_BYTES (avoidsReservedNames name)
    -- the space would come before the underscore, or the underscore before the space
    rw [heq, List.append_assoc, List.append_eq_append_iff] at hrest
    rcases hrest with ⟨more, hmore, hspace⟩ | ⟨more, hmore, hunderscore⟩
    · cases more with
      | nil => cases hspace
      | cons c more =>
        obtain rfl := (List.cons.inj hspace).1
        exact absurd (hmore ▸ by simp) (space_notMem hres)
    · cases more with
      | nil => cases hunderscore
      | cons c more =>
        obtain rfl := (List.cons.inj hunderscore).1
        exact absurd (hmore ▸ by simp) (underscore_notMem hstem)
  · exact if_neg hres

theorem trimEndMatches_append_of_forall {pad : List Char} (h : ∀ c ∈ pad, p c = true) :
    trimEndMatches p (s ++ pad) = trimEndMatches p s := by
  rw [trimEndMatches, trimEndMatches, List.reverse_append, List.dropWhile_append_of_pos]
  exact fun c hc => h c (List.mem_reverse.mp hc)

theorem trimEndMatches_eq_self (h : ∀ c ∈ s, p c = false) : trimEndMatches p s = s := by
  rw [trimEndMatches, dropWhile_eq_self fun c hc => h c (List.mem_reverse.mp hc),
    List.reverse_reverse]

/-- A padded name comes out as the device name. -/
theorem safeName_of_padded {proposed : List Char} (h : Padded (sanitized proposed)) :
    isReserved (stemOf (safeName proposed)) = true := by
  obtain ⟨hlen, hext, stem, pad, hstem, hkept, hpad⟩ := h
  obtain ⟨rest, hrest⟩ := hkept ▸ takeBytes_isPrefix MAX_BYTES (sanitized proposed)
  -- the space keeps the name from being rewritten
  have hself : avoidsReservedNames (sanitized proposed) = sanitized proposed := by
    refine if_neg fun hres : isReserved (stemOf (sanitized proposed)) = true =>
      space_notMem hres ?_
    rw [← hrest, List.append_assoc, stemOf_append, if_neg (dot_notMem hstem)]
    simp [stemOf]
  have hfits : fitsLength (sanitized proposed) = stem ++ ' ' :: pad := by
    rw [fitsLength, if_neg (Nat.not_le_of_lt hlen)]
    simp only [hext, List.append_nil]
    exact hkept
  have hall : ∀ c ∈ ' ' :: pad, isDotOrSpace c = true := by
    simpa [isDotOrSpace] using hpad
  have hnone : ∀ c ∈ stem, isDotOrSpace c = false := by
    intro c hc
    rw [isDotOrSpace, Bool.or_eq_false_iff, decide_eq_false_iff_not, decide_eq_false_iff_not]
    exact ⟨fun h => dot_notMem hstem (h ▸ hc), fun h => space_notMem hstem (h ▸ hc)⟩
  have hne : stem ≠ [] := List.ne_nil_of_length_pos (length_of_isReserved hstem).1
  have hpos : (sanitized proposed).isEmpty = false := by
    rw [← hrest]
    simp
  rw [safeName_eq, hpos, if_neg (by simp), hself, hfits, trimEndMatches_append_of_forall hall,
    trimEndMatches_eq_self hnone, orFile, if_neg (by simpa using hne),
    stemOf_eq_self (dot_notMem hstem)]
  exact hstem

/-- **A washed name is a device name of Windows exactly when it was padded**: the last chunk of the
name, cleaned and trimmed, is longer than 255 bytes without a short extension, and what is kept of
it is a reserved name, a space and then only spaces and dots. -/
theorem not_reserved_safeName_iff (proposed : List Char) :
    isReserved (stemOf (safeName proposed)) = false ↔ ¬ Padded (sanitized proposed) := by
  constructor
  · intro h hpadded
    rw [safeName_of_padded hpadded] at h
    cases h
  intro hpadded
  by_contra hres
  rw [Bool.not_eq_false] at hres
  apply hpadded
  rcases safeName_cases proposed with hfile | ⟨-, hne, hname⟩
  · rw [hfile] at hres
    exact absurd hres (by decide)
  rw [hname] at hres
  obtain ⟨body, c, hbody, hc⟩ := exists_of_trimEndMatches_ne_nil hne
  have hsan : sanitized proposed = body ++ [c] := hbody
  obtain ⟨front, d, hfront, hd⟩ := avoidsReservedNames_concat body hc
  have hstem := isReserved_stemOf_avoidsReservedNames (sanitized proposed)
  rw [← hsan] at hfront
  rw [hfront] at hres hstem
  have h := padded_of_isReserved hd hstem hres
  rw [← hfront] at h
  rwa [avoidsReservedNames_of_padded h] at h

/-- `CON`, 252 spaces and an `x`: the `x` is cut off, then the spaces are trimmed. -/
theorem safeName_eq_con :
    safeName ("CON".toList ++ List.replicate 252 ' ' ++ ['x']) = "CON".toList ∧
      isReserved (stemOf (safeName ("CON".toList ++ List.replicate 252 ' ' ++ ['x']))) = true := by
  decide +kernel

end Zyris.Transfer
