import Mathlib.Data.List.Induction
import Zyris.Input.Chord
import Zyris.Lib.Table
import Zyris.Transfer.Equiv.Wash

/-!
# Chords parse to what they spell

White space around a segment makes no difference, and a literal `+` at the end leaves two empty
segments behind, so that a chord whose last segment is not empty is not peeled.
-/

namespace Zyris.Input

open Transfer

/-! ### White space -/

variable {c : Char} {s : List Char}

theorem trim_cons (h : isWhitespace c = true) : trim (c :: s) = trim s := by
  rw [trim, trim, List.dropWhile_cons_of_pos h]

theorem trim_append {after : List Char} (h : ∀ c ∈ after, isWhitespace c = true) :
    trim (s ++ after) = trim s := by
  rw [trim, trim, List.dropWhile_append]
  split_ifs with hs
  · rw [List.isEmpty_iff.mp hs, List.dropWhile_eq_nil_iff.mpr h]
  · exact trimEndMatches_append_of_forall h

theorem trim_eq_self (h : ∀ c ∈ s, isWhitespace c = false) : trim s = s := by
  rw [trim, dropWhile_eq_self h, trimEndMatches_eq_self h]

/-- A name with white space around it. -/
def Padded (name segment : List Char) : Prop :=
  ∃ before after, segment = before ++ (name ++ after) ∧
    (∀ c ∈ before, isWhitespace c = true) ∧ ∀ c ∈ after, isWhitespace c = true

theorem Padded.trim_eq {name segment : List Char} (h : Padded name segment)
    (hname : ∀ c ∈ name, isWhitespace c = false) : trim segment = name := by
  obtain ⟨before, after, rfl, hbefore, hafter⟩ := h
  calc trim (before ++ (name ++ after))
      = trim (name ++ after) := by rw [trim, trim, List.dropWhile_append_of_pos hbefore]
    _ = trim name := trim_append hafter
    _ = name := trim_eq_self hname

theorem ne_plus (h : isWhitespace c = true) : c ≠ '+' := by
  rintro rfl
  exact absurd h (by decide)

/-! ### Segments -/

theorem pieces_cons (h : isWhitespace c = true) : pieces (c :: s) = pieces s := by
  rw [pieces, pieces, List.splitOn_cons_eq_if_modifyHead, if_neg (by simpa using ne_plus h)]
  obtain ⟨first, rest, hsplit⟩ := List.exists_cons_of_ne_nil (List.splitOn_ne_nil '+' s)
  rw [hsplit, List.modifyHead_cons, List.map_cons, List.map_cons, trim_cons h]

theorem exists_splitOn_concat (h : c ≠ '+') (s : List Char) :
    ∃ front last, s.splitOn '+' = front ++ [last] ∧
      (s ++ [c]).splitOn '+' = front ++ [last ++ [c]] := by
  induction s with
  | nil => exact ⟨[], [], rfl, by simp [List.splitOn_cons_eq_if_modifyHead, h]⟩
  | cons d s ih =>
    obtain ⟨front, last, hs, hsc⟩ := ih
    rw [List.cons_append, List.splitOn_cons_eq_if_modifyHead, List.splitOn_cons_eq_if_modifyHead,
      hs, hsc]
    split_ifs
    · exact ⟨[] :: front, last, rfl, rfl⟩
    · cases front with
      | nil => exact ⟨[], d :: last, rfl, rfl⟩
      | cons first front => exact ⟨(d :: first) :: front, last, rfl, rfl⟩

theorem pieces_concat (h : isWhitespace c = true) : pieces (s ++ [c]) = pieces s := by
  obtain ⟨front, last, hs, hsc⟩ := exists_splitOn_concat (ne_plus h) s
  have hlast : trim (last ++ [c]) = trim last := trim_append (by simpa using h)
  simp only [pieces, hs, hsc, List.map_append, List.map_cons, List.map_nil, hlast]

theorem pieces_dropWhile (s : List Char) : pieces (s.dropWhile isWhitespace) = pieces s := by
  induction s with
  | nil => rfl
  | cons c s ih =>
    by_cases hc : isWhitespace c = true
    · rw [List.dropWhile_cons_of_pos hc, ih, pieces_cons hc]
    · rw [List.dropWhile_cons_of_neg hc]

theorem pieces_trimEndMatches (s : List Char) :
    pieces (trimEndMatches isWhitespace s) = pieces s := by
  induction s using List.reverseRecOn with
  | nil => rfl
  | append_singleton s c ih =>
    by_cases hc : isWhitespace c = true
    · rw [trimEndMatches_append_of_forall (by simpa using hc), ih, pieces_concat hc]
    · rw [trimEndMatches_append (Bool.not_eq_true _ ▸ hc)]

theorem pieces_trim (s : List Char) : pieces (trim s) = pieces s := by
  rw [trim, pieces_trimEndMatches, pieces_dropWhile]

theorem pieces_peeled (s : List Char) : pieces (s ++ ['+', '+']) = pieces s ++ [[], []] := by
  rw [pieces, List.splitOn_append_cons_self, List.map_append]
  rfl

theorem pieces_intercalate {segments : List (List Char)} (hne : segments ≠ [])
    (h : ∀ segment ∈ segments, '+' ∉ segment) :
    pieces (['+'].intercalate segments) = segments.map trim := by
  rw [pieces, List.splitOn_intercalate '+' h hne]

theorem Padded.plus_notMem {name segment : List Char} (h : Padded name segment)
    (hname : '+' ∉ name) : '+' ∉ segment := by
  obtain ⟨before, after, rfl, hbefore, hafter⟩ := h
  rw [List.mem_append, List.mem_append]
  rintro (hmem | hmem | hmem)
  · exact ne_plus (hbefore '+' hmem) rfl
  · exact hname hmem
  · exact ne_plus (hafter '+' hmem) rfl

/-! ### Names -/

def isNameChar (c : Char) : Bool := ('a' ≤ c && c ≤ 'z') || ('0' ≤ c && c ≤ '9')

theorem isNameChar_of_mem {table : List (String × Key)} {e : String × Key}
    (htable : table = MODIFIERS ∨ table = NAMED) (he : e ∈ table) :
    e.1.toList ≠ [] ∧ ∀ c ∈ e.1.toList, isNameChar c = true := by
  have hall : table.all fun e => !e.1.toList.isEmpty && e.1.toList.all isNameChar := by
    rcases htable with rfl | rfl
    · decide +kernel
    · decide +kernel
  have hname := List.all_eq_true.mp hall e he
  rw [Bool.and_eq_true, List.all_eq_true] at hname
  exact ⟨by simpa using hname.1, hname.2⟩

theorem plain_of_lowered (h : isNameChar (toAsciiLowercase c) = true) :
    isWhitespace c = false ∧ c ≠ '+' := by
  have hrange : (48 ≤ c.toNat ∧ c.toNat ≤ 57) ∨ (65 ≤ c.toNat ∧ c.toNat ≤ 90) ∨
      (97 ≤ c.toNat ∧ c.toNat ≤ 122) := by
    unfold toAsciiLowercase at h
    split_ifs at h with hupper
    · exact .inr (.inl hupper)
    · simp only [isNameChar, Bool.or_eq_true, Bool.and_eq_true, decide_eq_true_eq] at h
      rcases h with h | h
      · exact .inr (.inr h)
      · exact .inl h
  constructor
  · simp only [isWhitespace, Bool.or_eq_false_iff, Bool.and_eq_false_iff, decide_eq_false_iff_not]
    omega
  · rintro rfl
    exact absurd hrange (by decide)

theorem plain_of_name {table : List (String × Key)} {name : List Char} {key : Key}
    (htable : table = MODIFIERS ∨ table = NAMED) (h : (lowered name, key) ∈ table) :
    name ≠ [] ∧ (∀ c ∈ name, isWhitespace c = false) ∧ '+' ∉ name := by
  obtain ⟨hne, hchars⟩ := isNameChar_of_mem htable h
  rw [lowered, String.toList_ofList] at hne hchars
  have hplain : ∀ c ∈ name, isWhitespace c = false ∧ c ≠ '+' := fun c hc =>
    plain_of_lowered (hchars _ (List.mem_map_of_mem hc))
  refine ⟨fun hnil => hne (by rw [hnil]; rfl), fun c hc => (hplain c hc).1, fun hmem => ?_⟩
  exact (hplain '+' hmem).2 rfl

theorem nodup_names : (MODIFIERS.map Prod.fst).Nodup ∧ (NAMED.map Prod.fst).Nodup := by
  decide

theorem names_disjoint : ∀ e ∈ NAMED, MODIFIERS.lookup e.1 = none := by
  decide

theorem no_single_names : ∀ e ∈ MODIFIERS ++ NAMED, e.1.length ≠ 1 := by
  decide

def SpellsModifier (segment : List Char) (m : Key) : Prop :=
  ∃ name, Padded name segment ∧ (lowered name, m) ∈ MODIFIERS

/-- A segment that spells a key: a name, or a single character. -/
def SpellsKey (segment : List Char) (key : Key) : Prop :=
  ∃ name, Padded name segment ∧ ((lowered name, key) ∈ NAMED ∨
    ∃ c, name = [c] ∧ isWhitespace c = false ∧ c ≠ '+' ∧ key = .unicode c)

theorem SpellsModifier.spec {segment : List Char} {m : Key} (h : SpellsModifier segment m) :
    '+' ∉ segment ∧ trim segment ≠ [] ∧ modifier (trim segment) = some m := by
  obtain ⟨name, hpadded, hmem⟩ := h
  obtain ⟨hne, hspace, hplus⟩ := plain_of_name (.inl rfl) hmem
  rw [hpadded.trim_eq hspace]
  exact ⟨hpadded.plus_notMem hplus, hne, (Table.mem_iff_lookup nodup_names.1 _ _).mp hmem⟩

theorem SpellsKey.spec {segment : List Char} {key : Key} (h : SpellsKey segment key)
    (chord : List Char) : '+' ∉ segment ∧ trim segment ≠ [] ∧ modifier (trim segment) = none ∧
      named (trim segment) chord = .ok key := by
  obtain ⟨name, hpadded, hmem | ⟨c, rfl, hspace, hplus, rfl⟩⟩ := h
  · obtain ⟨hne, hspace, hplus⟩ := plain_of_name (.inr rfl) hmem
    have hlookup := (Table.mem_iff_lookup nodup_names.2 _ _).mp hmem
    rw [hpadded.trim_eq hspace]
    unfold named
    rw [hlookup]
    exact ⟨hpadded.plus_notMem hplus, hne, names_disjoint _ hmem, rfl⟩
  · have hlookup {table : List (String × Key)} (htable : table ⊆ MODIFIERS ++ NAMED) :
        table.lookup (lowered [c]) = none := by
      rw [List.lookup_eq_none_iff]
      intro e he
      rw [bne_iff_ne]
      intro heq
      exact no_single_names e (htable he) (by rw [← heq, lowered, String.length_ofList]; rfl)
    rw [hpadded.trim_eq (by simpa using hspace)]
    unfold named
    rw [hlookup (List.subset_append_right _ _)]
    exact ⟨hpadded.plus_notMem (by simpa using hplus.symm), by simp,
      hlookup (List.subset_append_left _ _), rfl⟩

/-! ### The loop -/

variable {chord : List Char} {bodyIsEmpty : Bool} {modifiers modifiers' : List Key}
  {key key' : Option Key}

theorem parseSegments_modifiers {segments : List (List Char)} {ms : List Key}
    (h : List.Forall₂ SpellsModifier segments ms) (rest : List (List Char)) :
    parseSegments chord bodyIsEmpty (segments.map trim ++ rest) modifiers key =
      parseSegments chord bodyIsEmpty rest (modifiers ++ ms) key := by
  induction h generalizing modifiers with
  | nil => rw [List.append_nil]; rfl
  | cons hm _ ih =>
    obtain ⟨_, hne, hmodifier⟩ := hm.spec
    rw [List.map_cons, List.cons_append, parseSegments, if_neg hne, hmodifier]
    dsimp only
    rw [ih, List.append_assoc]
    rfl

def isKey (segment : List Char) : Bool := (modifier segment).isNone

/-- No segment is empty; each key sets the slot, which must be free, and each modifier is pushed. -/
theorem of_parseSegments {segments : List (List Char)}
    (h : parseSegments chord false segments modifiers key = .ok (modifiers', key')) :
    (∀ segment ∈ segments, segment ≠ []) ∧
      (segments.filter isKey).length + key.toList.length = key'.toList.length ∧
      modifiers'.length + (segments.filter isKey).length =
        modifiers.length + segments.length := by
  induction segments generalizing modifiers key with
  | nil =>
    cases h
    simp
  | cons segment segments ih =>
    rw [parseSegments] at h
    split_ifs at h with hne hbody
    · exact hbody.elim
    cases hmodifier : modifier segment with
    | some m =>
      rw [hmodifier] at h
      obtain ⟨hall, hkeys, hlength⟩ := ih h
      have hkey : ¬ isKey segment = true := by simp [isKey, hmodifier]
      rw [List.filter_cons_of_neg hkey, List.length_cons]
      rw [List.length_append, List.length_singleton] at hlength
      exact ⟨List.forall_mem_cons.mpr ⟨hne, hall⟩, hkeys, by omega⟩
    | none =>
      rw [hmodifier] at h
      rcases hnamed : named segment chord with _ | _ <;> rw [hnamed] at h
      · cases h
      -- the slot must have been free
      cases key with
      | some _ => cases h
      | none =>
        obtain ⟨hall, hkeys, hlength⟩ := ih h
        have hkey : isKey segment = true := by simp [isKey, hmodifier]
        rw [List.filter_cons_of_pos hkey, List.length_cons, List.length_cons]
        simp only [Option.toList_some, List.length_singleton, Option.toList_none,
          List.length_nil] at hkeys ⊢
        exact ⟨List.forall_mem_cons.mpr ⟨hne, hall⟩, by omega, by omega⟩

/-! ### What is peeled off -/

theorem peel_plus (s : List Char) : peel (s ++ ['+', '+']) = (s, true) := by
  unfold peel
  rw [if_neg, if_pos (List.suffix_append s _)]
  · simp
  · intro h
    simpa using congrArg List.length h

theorem peel_cases (trimmed : List Char) :
    (trimmed = ['+'] ∧ peel trimmed = ([], true)) ∨
    (∃ body, trimmed = body ++ ['+', '+'] ∧ peel trimmed = (body, true)) ∨
    peel trimmed = (trimmed, false) := by
  by_cases hplus : trimmed = ['+']
  · exact .inl ⟨hplus, if_pos hplus⟩
  · by_cases hsuffix : ['+', '+'] <:+ trimmed
    · obtain ⟨body, rfl⟩ := hsuffix
      exact .inr (.inl ⟨body, rfl, peel_plus body⟩)
    · exact .inr (.inr ((if_neg hplus).trans (if_neg hsuffix)))

theorem peel_of_last {segments : List (List Char)} {last : List Char}
    (h : pieces chord = segments ++ [last]) (hlast : last ≠ []) :
    peel (trim chord) = (trim chord, false) := by
  rw [← pieces_trim] at h
  have hget := congrArg List.getLast? h
  rw [List.getLast?_concat] at hget
  rcases peel_cases (trim chord) with ⟨heq, -⟩ | ⟨body, heq, -⟩ | hpeel
  · rw [heq] at hget
    exact absurd (Option.some.inj hget).symm hlast
  · rw [heq, pieces_peeled, List.append_cons, List.getLast?_concat] at hget
    exact absurd (Option.some.inj hget).symm hlast
  · exact hpeel

/-- The segments of a chord that are not empty, a literal `+` at its end included. -/
def segments (chord : List Char) : List (List Char) :=
  (pieces chord).filter (· ≠ []) ++
    if trim chord = ['+'] ∨ ['+', '+'] <:+ trim chord then [['+']] else []

theorem peel_snd_iff (trimmed : List Char) :
    (peel trimmed).2 = true ↔ trimmed = ['+'] ∨ ['+', '+'] <:+ trimmed := by
  unfold peel
  split_ifs with hplus hsuffix
  · exact iff_of_true rfl (.inl hplus)
  · exact iff_of_true rfl (.inr hsuffix)
  · exact iff_of_false (by simp) (by simp [hplus, hsuffix])

theorem segments_eq (chord : List Char) : segments chord =
    (pieces (peel (trim chord)).1).filter (· ≠ []) ++
      if (peel (trim chord)).2 then [['+']] else [] := by
  rw [segments, ← pieces_trim]
  simp only [← peel_snd_iff]
  rcases peel_cases (trim chord) with ⟨heq, hpeel⟩ | ⟨body, heq, hpeel⟩ | hpeel
  · rw [hpeel, heq]
    rfl
  · rw [hpeel]
    rw [heq, pieces_peeled, List.filter_append]
    simp
  · rw [hpeel]

/-! ### Chords -/

theorem plus_notMem_of_spells {segs : List (List Char)} {mods : List Key}
    (h : List.Forall₂ SpellsModifier segs mods) : ∀ seg ∈ segs, '+' ∉ seg := by
  induction h with
  | nil => exact fun seg hseg => nomatch hseg
  | cons hm _ ih => exact List.forall_mem_cons.mpr ⟨hm.spec.1, ih⟩

theorem parseChord_key {segs : List (List Char)} {mods : List Key} {last : List Char} {key : Key}
    (hsegs : List.Forall₂ SpellsModifier segs mods) (hlast : SpellsKey last key) :
    parseChord (['+'].intercalate (segs ++ [last])) = .ok (mods, key) := by
  generalize hchord : ['+'].intercalate (segs ++ [last]) = chord
  obtain ⟨hplus, hne, hmodifier, hnamed⟩ := hlast.spec chord
  have hpieces : pieces chord = segs.map trim ++ [trim last] := by
    rw [← hchord, pieces_intercalate (by simp), List.map_append, List.map_singleton]
    intro seg hseg
    rcases List.mem_append.mp hseg with hseg | hseg
    · exact plus_notMem_of_spells hsegs seg hseg
    · rw [List.mem_singleton.mp hseg]
      exact hplus
  have htrim : trim chord ≠ [] := by
    intro hnil
    have hget := congrArg List.getLast? ((pieces_trim chord).trans hpieces)
    rw [hnil, List.getLast?_concat] at hget
    exact hne (Option.some.inj hget).symm
  rw [parseChord, if_neg htrim, peel_of_last hpieces hne]
  dsimp only
  rw [pieces_trim, hpieces, parseSegments_modifiers hsegs, parseSegments, if_neg hne, hmodifier]
  rw [hnamed]
  rfl

theorem trim_plus (s : List Char) :
    trim (s ++ ['+', '+']) = s.dropWhile isWhitespace ++ ['+', '+'] := by
  have hdrop : (s ++ ['+', '+']).dropWhile isWhitespace =
      s.dropWhile isWhitespace ++ ['+', '+'] := by
    rw [List.dropWhile_append]
    split_ifs with hs
    · rw [List.isEmpty_iff.mp hs]
      rfl
    · rfl
  rw [trim, hdrop, List.append_cons]
  exact trimEndMatches_append (by decide)

theorem parseChord_plus {segs : List (List Char)} {mods : List Key}
    (hsegs : List.Forall₂ SpellsModifier segs mods) :
    parseChord (['+'].intercalate segs ++ ['+', '+']) = .ok (mods, .unicode '+') := by
  cases hsegs with
  | nil => rfl
  | @cons seg m segs mods hm hsegs =>
    have hall := List.Forall₂.cons hm hsegs
    have hpieces : pieces ((['+'].intercalate (seg :: segs)).dropWhile isWhitespace) =
        (seg :: segs).map trim ++ [] := by
      rw [pieces_dropWhile, pieces_intercalate (List.cons_ne_nil _ _) (plus_notMem_of_spells hall),
        List.append_nil]
    rw [parseChord, trim_plus, if_neg (by simp), peel_plus]
    dsimp only
    rw [hpieces, parseSegments_modifiers hall]
    rfl

/-- In a chord that parses one segment is not a modifier, unless it is a lone modifier. -/
theorem one_key_of_parseChord {mods : List Key} {k : Key} (h : parseChord chord = .ok (mods, k))
    (hlength : 2 ≤ (segments chord).length) : ((segments chord).filter isKey).length = 1 := by
  have hplus : isKey ['+'] = true := by decide
  rw [segments_eq] at hlength ⊢
  unfold parseChord at h
  split_ifs at h with htrim
  generalize peel (trim chord) = peeled at h hlength ⊢
  obtain ⟨body, plus⟩ := peeled
  dsimp only at h hlength ⊢
  rcases body with _ | ⟨c, s⟩
  · -- at most a literal `+`
    cases plus <;> exact absurd hlength (by decide)
  generalize pieces (c :: s) = segs at h hlength ⊢
  cases hparse : parseSegments chord (c :: s).isEmpty segs []
    (if plus then some (.unicode '+') else none) with
  | error e =>
    rw [hparse] at h
    cases h
  | ok found =>
    obtain ⟨modifiers, key⟩ := found
    obtain ⟨hall, hkeys, hcount⟩ := of_parseSegments hparse
    have hfilter : segs.filter (· ≠ []) = segs := List.filter_eq_self.mpr (by simpa using hall)
    rw [hfilter] at hlength ⊢
    rw [hparse] at h
    have htotal : ((segs ++ if plus then [['+']] else []).filter isKey).length =
        key.toList.length := by
      rw [← hkeys, List.filter_append, List.length_append]
      cases plus <;> simp [hplus]
    rw [htotal]
    cases key with
    | some key => rfl
    | none =>
      -- a lone modifier is one segment
      rcases modifiers with _ | ⟨m, _ | ⟨m', modifiers⟩⟩ <;> cases h
      have hone : 1 + (segs.filter isKey).length = 0 + segs.length := hcount
      cases plus with
      | true => cases hkeys
      | false =>
        have hnone : (segs.filter isKey).length + 0 = 0 := hkeys
        simp only [Bool.false_eq_true, if_false, List.append_nil] at hlength
        omega

/-- **Chords parse to what they spell.**  Modifiers and a key, or a literal `+`, come back as they
are spelled, in order; and in a chord of two or more segments that parses exactly one is not a
modifier. -/
theorem chords_parse :
    (∀ segs mods last key, List.Forall₂ SpellsModifier segs mods → SpellsKey last key →
      parseChord (['+'].intercalate (segs ++ [last])) = .ok (mods, key)) ∧
    (parseChord ['+'] = .ok ([], .unicode '+') ∧
      ∀ segs mods, List.Forall₂ SpellsModifier segs mods →
        parseChord (['+'].intercalate segs ++ ['+', '+']) = .ok (mods, .unicode '+')) ∧
    ∀ chord mods key, parseChord chord = .ok (mods, key) → 2 ≤ (segments chord).length →
      ((segments chord).filter isKey).length = 1 :=
  ⟨fun _ _ _ _ hsegs hlast => parseChord_key hsegs hlast,
    ⟨rfl, fun _ _ hsegs => parseChord_plus hsegs⟩,
    fun _ _ _ h hlength => one_key_of_parseChord h hlength⟩

theorem chords_parse_copy :
    parseChord " Ctrl + c ".toList = .ok ([.control], .unicode 'c') := by
  have hctrl : Padded "Ctrl".toList " Ctrl ".toList :=
    ⟨[' '], [' '], rfl, List.all_eq_true.mp rfl, List.all_eq_true.mp rfl⟩
  have hc : Padded ['c'] " c ".toList :=
    ⟨[' '], [' '], rfl, List.all_eq_true.mp rfl, List.all_eq_true.mp rfl⟩
  exact chords_parse.1 [" Ctrl ".toList] [.control] " c ".toList (.unicode 'c')
    (.cons ⟨"Ctrl".toList, hctrl, by decide +kernel⟩ .nil)
    ⟨['c'], hc, .inr ⟨'c', rfl, by decide +kernel, by decide +kernel, rfl⟩⟩

end Zyris.Input
