import VirtBoard.Proofs.Qemu.VersionTexts

/-!
# Banners

The release in a banner is the first word behind the first marker.  The marker overlaps with no part
of itself, so text in front of it that only begins like a marker does not hide it.
-/

namespace VirtBoard.Qemu

open Text

namespace Version

/-! ## 1. The first occurrence of a word -/

section Occurrence

variable {word s before rest : List Char}

/-- The first place where a word occurs, by what stands before and behind it. -/
structure FirstOccurrence (word s before rest : List Char) : Prop where
  split : s = before ++ word ++ rest
  first : ∀ before' rest', s = before' ++ word ++ rest' → before.length ≤ before'.length

theorem FirstOccurrence.cons {c : Char} (hc : ¬word <+: c :: s)
    (h : FirstOccurrence word s before rest) : FirstOccurrence word (c :: s) (c :: before) rest where
  split := by rw [h.split]; rfl
  first before' rest' hs := by
    cases before' with
    | nil => exact absurd ⟨rest', hs.symm⟩ hc
    | cons d before' => exact Nat.succ_le_succ (h.first before' rest' (List.cons.inj hs).2)

theorem firstOccurrence_of_after? (h : after? word s = some rest) :
    ∃ before, FirstOccurrence word s before rest := by
  induction s with
  | nil =>
    rw [after?] at h
    split at h
    next hword =>
      obtain rfl := Option.some.inj h
      exact ⟨[], by rw [hword]; rfl, fun _ _ _ => Nat.zero_le _⟩
    next => cases h
  | cons c s ih =>
    rw [after?] at h
    split at h
    next hprefix =>
      obtain ⟨tail, htail⟩ := List.isPrefixOf_iff_prefix.mp hprefix
      rw [← htail, List.drop_left] at h
      obtain rfl := Option.some.inj h
      exact ⟨[], htail.symm, fun _ _ _ => Nat.zero_le _⟩
    next hprefix =>
      obtain ⟨before, hfirst⟩ := ih h
      exact ⟨c :: before, hfirst.cons fun hc => hprefix (List.isPrefixOf_iff_prefix.mpr hc)⟩

theorem after?_eq_none_iff : after? word s = none ↔ ¬word <:+: s := by
  induction s with
  | nil =>
    rw [List.infix_nil, after?]
    split <;> simp_all
  | cons c s ih =>
    rw [after?, List.infix_cons_iff, ← List.isPrefixOf_iff_prefix, not_or, ← ih]
    split <;> simp_all

theorem FirstOccurrence.isInfix (h : FirstOccurrence word s before rest) : word <:+: s :=
  ⟨before, rest, h.split.symm⟩

theorem FirstOccurrence.after?_eq (h : FirstOccurrence word s before rest) :
    after? word s = some rest := by
  cases hafter : after? word s with
  | none => exact absurd h.isInfix (after?_eq_none_iff.mp hafter)
  | some rest' =>
    -- Of two first places each is at most as far as the other.
    obtain ⟨before', h'⟩ := firstOccurrence_of_after? hafter
    have hlength : before.length = before'.length :=
      Nat.le_antisymm (h.first _ _ h'.split) (h'.first _ _ h.split)
    have hsplit := h.split.symm.trans h'.split
    rw [List.append_assoc, List.append_assoc] at hsplit
    have hrest := (List.append_inj hsplit hlength).2
    rw [List.append_cancel_left hrest]

/-- A word whose first character is nowhere else in it does not overlap with itself, so what stands
before it cannot begin it too soon. -/
theorem firstOccurrence_of_head {c : Char} {tail : List Char} (hc : c ∉ tail)
    (hbefore : ¬c :: tail <:+: before) (rest : List Char) :
    FirstOccurrence (c :: tail) (before ++ c :: tail ++ rest) before rest where
  split := rfl
  first before' rest' hs := by
    by_contra hlength
    rw [List.append_assoc, List.append_assoc] at hs
    obtain ⟨x, rfl⟩ : before' <+: before :=
      List.prefix_of_prefix_length_le ⟨_, hs.symm⟩ (List.prefix_append _ _) (by omega)
    rw [List.append_assoc] at hs
    -- The earlier word would end in the text before, or reach into the later one.
    rcases List.append_eq_append_iff.mp (List.append_cancel_left hs) with
      ⟨y, hword, hrest⟩ | ⟨y, rfl, -⟩
    · cases y with
      | nil =>
        rw [List.append_nil] at hword
        exact hbefore ⟨before', [], by rw [hword, List.append_nil]⟩
      | cons e y =>
        obtain ⟨rfl, -⟩ := List.cons.inj hrest
        cases x with
        | nil => simp at hlength
        | cons d x =>
          refine hc ?_
          rw [(List.cons.inj hword).2]
          exact List.mem_append_right x List.mem_cons_self
    · exact hbefore ⟨before', y, List.append_assoc _ _ _⟩

end Occurrence

/-! ## 2. The release in a banner -/

section Banner

variable {banner : String} {before rest word : List Char}

theorem ofBanner_eq_missingMarker_iff {b : String} :
    ofBanner banner = .error (.missingMarker b) ↔ b = banner ∧ ¬marker <:+: banner.toList := by
  rw [← after?_eq_none_iff, ofBanner]
  cases after? marker banner.toList with
  | none => simp [eq_comm]
  | some rest =>
    have hmalformed : parse (String.ofList (firstWord rest)) ≠ .error (.missingMarker b) :=
      fun h => nomatch (parse_eq_error_iff.mp h).1
    simp [hmalformed]

theorem ofBanner_eq_parse (hfirst : FirstOccurrence marker banner.toList before rest)
    (hword : IsFirstWord rest word) : ofBanner banner = parse (String.ofList word) := by
  rw [ofBanner, hfirst.after?_eq]
  dsimp only
  rw [hword.firstWord_eq]

/-- Behind a marker, blanks and the text of a release stand as its first word, with all behind it up
to the next blank. -/
theorem isFirstWord_text {w r : List Char} (v : Version) (hw : ∀ c ∈ w, isBlank c = true) :
    IsFirstWord (w ++ v.text.toList ++ r) (v.text.toList ++ r.takeWhile fun c => !isBlank c) := by
  refine ⟨⟨w, r.dropWhile fun c => !isBlank c, ?_, hw, fun c hc => ?_, fun hnil => ?_⟩, fun c hc => ?_⟩
  · rw [List.append_assoc, List.append_assoc, List.append_assoc, List.takeWhile_append_dropWhile]
  · exact (Bool.not_eq_false' _).mp (head?_dropWhile _ r c hc)
  · exact absurd (List.append_eq_nil_iff.mp hnil).1 (text_ne_nil v)
  · rcases List.mem_append.mp hc with hc | hc
    · exact not_isBlank_of_mem_text hc
    · exact (Bool.not_eq_true' _).mp (List.mem_takeWhile_imp (p := fun d => !isBlank d) hc)

theorem ofBanner_text {p w r : String} (v : Version) (hp : ¬marker <:+: p.toList)
    (hw : ∀ c ∈ w.toList, isBlank c = true) (hr : ∀ c ∈ r.toList.head?, c.isDigit = false) :
    ofBanner (p ++ "version " ++ w ++ v.text ++ r) = .ok v := by
  have hmarker : marker = 'v' :: "ersion ".toList := by decide
  have htext : (p ++ "version " ++ w ++ v.text ++ r).toList =
      p.toList ++ marker ++ (w.toList ++ v.text.toList ++ r.toList) := by
    simp only [String.toList_append, List.append_assoc]
    rfl
  have hfirst : FirstOccurrence marker (p ++ "version " ++ w ++ v.text ++ r).toList p.toList
      (w.toList ++ v.text.toList ++ r.toList) := by
    rw [hmarker] at hp
    rw [htext, hmarker]
    exact firstOccurrence_of_head (by decide) hp _
  rw [ofBanner_eq_parse hfirst (isFirstWord_text v hw), String.ofList_append, String.ofList_toList]
  refine parse_eq_ok_iff.mpr (spells_text_append v fun c hc => ?_)
  rw [String.toList_ofList] at hc
  exact hr c (head?_mono (List.takeWhile_prefix _) c hc)

end Banner

/-- A banner without a marker is refused as it is.  In any other the release is read from the first
word behind the first marker, which is the empty text if only blanks follow.  So the text of a
release behind the marker is found whatever stands in front of it, but another marker, and whatever
stands behind it, but more digits. -/
theorem ofBanner_finds_the_release :
    (∀ banner b, ofBanner banner = .error (.missingMarker b) ↔
      b = banner ∧ ¬marker <:+: banner.toList) ∧
      (∀ banner : String, marker <:+: banner.toList → ∃ before rest word,
        FirstOccurrence marker banner.toList before rest ∧ IsFirstWord rest word ∧
          ofBanner banner = parse (String.ofList word) ∧
          ((∀ c ∈ rest, isBlank c = true) → ofBanner banner = .error (.malformed ""))) ∧
      ∀ (p w : String) (v : Version) (r : String), ¬marker <:+: p.toList →
        (∀ c ∈ w.toList, isBlank c = true) → (∀ c ∈ r.toList.head?, c.isDigit = false) →
          ofBanner (p ++ "version " ++ w ++ v.text ++ r) = .ok v := by
  refine ⟨fun banner b => ofBanner_eq_missingMarker_iff, fun banner hmarker => ?_,
    fun p w v r hp hw hr => ofBanner_text v hp hw hr⟩
  obtain ⟨rest, hrest⟩ := Option.ne_none_iff_exists'.mp fun h => after?_eq_none_iff.mp h hmarker
  obtain ⟨before, hfirst⟩ := firstOccurrence_of_after? hrest
  have hword := isFirstWord_firstWord rest
  refine ⟨before, rest, firstWord rest, hfirst, hword, ofBanner_eq_parse hfirst hword, fun hblank => ?_⟩
  have hnone : IsFirstWord rest [] :=
    ⟨⟨rest, [], by simp, hblank, fun _ hc => (nomatch hc), fun _ => rfl⟩,
      fun _ hc => (nomatch hc)⟩
  rw [ofBanner_eq_parse hfirst hnone]
  rfl

/-- A text in front that ends like the start of a marker, and blanks that are no spaces. -/
theorem nearly_a_marker_is_passed_over :
    ¬marker <:+: "conversion, vers".toList ∧ (∀ c ∈ "\u2003\t".toList, isBlank c = true) ∧
      (∀ c ∈ "-rc1 (version 9.0.0)".toList.head?, c.isDigit = false) ∧
      ofBanner ("conversion, vers" ++ "version " ++ "\u2003\t" ++ (⟨8, 2, 10⟩ : Version).text ++
        "-rc1 (version 9.0.0)") = .ok ⟨8, 2, 10⟩ :=
  have hp : ¬marker <:+: "conversion, vers".toList := after?_eq_none_iff.mp (by decide)
  have hw : ∀ c ∈ "\u2003\t".toList, isBlank c = true := List.all_eq_true.mp (by decide)
  have hr : ∀ c ∈ "-rc1 (version 9.0.0)".toList.head?, c.isDigit = false := by simp
  ⟨hp, hw, hr, ofBanner_finds_the_release.2.2 "conversion, vers" "\u2003\t" ⟨8, 2, 10⟩
    "-rc1 (version 9.0.0)" hp hw hr⟩

end Version

end VirtBoard.Qemu
