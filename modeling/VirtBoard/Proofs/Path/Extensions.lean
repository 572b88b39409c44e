import VirtBoard.Proofs.Path.Siblings
import VirtBoard.Proofs.Text.Blanks

/-!
# Sources and binaries by their extension

A path is cut at its file name in at most one way, and in none if it has no file name.  Another
extension takes the place of all behind the stem, so that a source and its binary find each other,
unless the stem is a single dot: without its extension such a name is the folder above.
-/

namespace VirtBoard.Path

/-! ## 1. What follows a file name -/

/-- Slashes, and dots that stand for the directory itself. -/
inductive Trailing : List Char → Prop where
  | nil : Trailing []
  | slash {s : List Char} (h : Trailing s) : Trailing ('/' :: s)
  | dot {s : List Char} (h : Trailing s) : Trailing ('/' :: '.' :: s)

section Trailing

variable {s t : List Char} {p q : Path}

theorem Trailing.append (hs : Trailing s) (ht : Trailing t) : Trailing (s ++ t) := by
  induction hs with
  | nil => exact ht
  | slash _ ih => exact .slash ih
  | dot _ ih => exact .dot ih

theorem Trailing.dropTrailing_append (h : Trailing s) (r : List Char) :
    dropTrailing (s.reverse ++ r) = dropTrailing r := by
  -- What stands behind it is passed over first.
  induction h generalizing r with
  | nil => rfl
  | slash _ ih =>
    rw [List.reverse_cons, List.append_assoc, ih]
    rfl
  | dot _ ih =>
    rw [List.reverse_cons, List.reverse_cons, List.append_assoc, List.append_assoc, ih]
    rfl

theorem exists_trailing (s : List Char) :
    ∃ after, s.reverse = (dropTrailing s).reverse ++ after ∧ Trailing after := by
  fun_induction dropTrailing s with
  | case1 r ih =>
    obtain ⟨after, hr, hafter⟩ := ih
    refine ⟨after ++ ['/'], ?_, hafter.append (.slash .nil)⟩
    rw [List.reverse_cons, hr, List.append_assoc]
  | case2 r ih =>
    obtain ⟨after, hr, hafter⟩ := ih
    refine ⟨after ++ ['/', '.'], ?_, hafter.append (.dot .nil)⟩
    rw [List.reverse_cons, List.reverse_cons, hr, List.append_assoc, List.append_assoc]
    rfl
  | case3 r => exact ⟨[], (List.append_nil _).symm, .nil⟩

theorem dropTrailing_settled (s : List Char) :
    (∀ r, dropTrailing s ≠ '/' :: r) ∧ ∀ r, dropTrailing s ≠ '.' :: '/' :: r := by
  fun_induction dropTrailing s with
  | case1 r ih => exact ih
  | case2 r ih => exact ih
  | case3 r hslash hdot => exact ⟨hslash, hdot⟩

/-- Every path ends in a name, if there is any, and what may follow it. -/
theorem exists_kept (p : Path) :
    ∃ (q : Path) (after : List Char),
      p.chars = q.chars ++ after ∧ Trailing after ∧ q.EndsInName := by
  obtain ⟨after, hchars, hafter⟩ := exists_trailing p.chars.reverse
  obtain ⟨hslash, hdot⟩ := dropTrailing_settled p.chars.reverse
  refine ⟨ofChars (dropTrailing p.chars.reverse).reverse, after, ?_, hafter, ?_, ?_⟩
  · rw [chars_ofChars, ← hchars, List.reverse_reverse]
  · rw [chars_ofChars]
    rintro ⟨s, hs⟩
    apply hslash s.reverse
    rw [← List.reverse_reverse (dropTrailing _), ← hs, List.reverse_append]
    rfl
  · rw [chars_ofChars]
    rintro ⟨s, hs⟩
    apply hdot s.reverse
    rw [← List.reverse_reverse (dropTrailing _), ← hs, List.reverse_append]
    rfl

theorem nameParts?_of_kept {after : List Char} (hchars : p.chars = q.chars ++ after)
    (hafter : Trailing after) (hq : q.EndsInName) :
    p.nameParts? = q.nameParts?.map fun n => { n with after } := by
  have hkept : dropTrailing p.chars.reverse = q.chars.reverse := by
    rw [hchars, List.reverse_append, hafter.dropTrailing_append, hq.dropTrailing]
  have hrest : p.chars.drop q.chars.reverse.length = after := by
    rw [hchars, List.length_reverse, List.drop_left]
  unfold nameParts?
  simp only [hkept, hq.dropTrailing, hrest]
  split <;> rfl

end Trailing

/-! ## 2. Stems -/

/-- A file name in two: its stem, and behind it nothing or the last dot of the name with the
extension.  A dot that the name begins with belongs to the stem. -/
inductive StemCut : List Char → List Char → Prop where
  | plain {c : Char} {s : List Char} (h : '.' ∉ s) : StemCut (c :: s) []
  | dotted {stem extension : List Char} (hstem : stem ≠ []) (h : '.' ∉ extension) :
    StemCut stem ('.' :: extension)

theorem StemCut.cutName_reverse {stem suffix : List Char} (h : StemCut stem suffix) :
    cutName (stem ++ suffix).reverse = (stem, suffix) := by
  cases h with
  | dotted hstem h => exact Path.cutName_reverse hstem h
  | @plain c s h =>
    have hdots : ∀ d ∈ s.reverse, decide (d ≠ '.') = true := by
      intro d hd
      simp only [decide_eq_true_eq]
      exact fun he => h (List.mem_reverse.mp (he ▸ hd))
    rw [List.append_nil, cutName, List.reverse_cons, List.dropWhile_append_of_pos hdots]
    by_cases hc : c = '.'
    · rw [hc, List.dropWhile_cons_of_neg (by simp)]
      simp
    · rw [List.dropWhile_cons_of_pos (by simpa using hc)]
      simp

theorem StemCut.ne_nil {stem suffix : List Char} (h : StemCut stem suffix) : stem ≠ [] := by
  cases h with
  | plain _ => exact List.cons_ne_nil _ _
  | dotted hstem _ => exact hstem

theorem exists_stemCut {name : List Char} (h : name ≠ []) :
    ∃ stem suffix, name = stem ++ suffix ∧ StemCut stem suffix := by
  obtain ⟨c, s, rfl⟩ := List.exists_cons_of_ne_nil h
  by_cases hdot : '.' ∈ s
  · -- The last dot is the first one from the end.
    obtain ⟨extension, front, hs, hext⟩ := List.eq_append_cons_of_mem (List.mem_reverse.mpr hdot)
    refine ⟨c :: front.reverse, '.' :: extension.reverse, ?_, .dotted (List.cons_ne_nil _ _) ?_⟩
    · rw [← List.reverse_reverse s, hs]
      simp
    · exact fun hmem => hext (List.mem_reverse.mp hmem)
  · exact ⟨c :: s, [], (List.append_nil _).symm, .plain hdot⟩

/-! ## 3. The cut at the file name -/

/-- Text that a component stands behind: none, or some up to a slash. -/
def Leads (s : List Char) : Prop := s = [] ∨ ∃ t, s = t ++ ['/']

/-- A path cut at its file name. -/
structure CutAt (p : Path) (n : NameParts) : Prop where
  text : p.chars = n.before ++ (n.stem ++ n.suffix) ++ n.after
  before : Leads n.before
  name : IsName (String.ofList (n.stem ++ n.suffix))
  stem : StemCut n.stem n.suffix
  after : Trailing n.after

/-- A path without a file name: it ends in the folder above, or has no component but dots. -/
def Nameless (p : Path) : Prop :=
  ∃ before last after, p.chars = before ++ last ++ after ∧ Leads before ∧ Trailing after ∧
    (last = ['.', '.'] ∨ before = [] ∧ (last = [] ∨ last = ['.']))

section Cut

variable {p : Path} {n n' : NameParts}

-- The folder and the last name of a text that is put together of them.
theorem folder_lastName_of_chars {before name : List Char}
    (hbefore : Leads before) (hname : '/' ∉ name) :
    (ofChars (before ++ name)).folder.chars = before ∧
      (ofChars (before ++ name)).lastName = String.ofList name := by
  have hplain : ∀ c ∈ name.reverse, decide (c ≠ '/') = true := by
    intro c hc
    simp only [decide_eq_true_eq]
    exact fun he => hname (List.mem_reverse.mp (he ▸ hc))
  have hstop : ∀ c ∈ before.reverse.head?, decide (c ≠ '/') = false := by
    intro c hc
    rcases hbefore with rfl | ⟨s, rfl⟩
    · cases hc
    · rw [List.reverse_concat] at hc
      obtain rfl := Option.some.inj hc
      rfl
  constructor
  · rw [folder, chars_ofChars, chars_ofChars, List.rdropWhile, List.reverse_append,
      Text.dropWhile_run hplain hstop, List.reverse_reverse]
  · rw [lastName, chars_ofChars, List.rtakeWhile, List.reverse_append,
      Text.takeWhile_run hplain hstop, List.reverse_reverse]

theorem CutAt.nameParts?_eq (h : p.CutAt n) : p.nameParts? = some n := by
  have hslash : '/' ∉ n.stem ++ n.suffix := by simpa using h.name.1
  obtain ⟨hfolder, hlast⟩ := folder_lastName_of_chars h.before hslash
  have hname : IsName (ofChars (n.before ++ (n.stem ++ n.suffix))).lastName := by
    rw [hlast]
    exact h.name
  have hchars : p.chars = (ofChars (n.before ++ (n.stem ++ n.suffix))).chars ++ n.after := by
    rw [chars_ofChars, h.text]
  have hends := endsInName_of_isName hname
  rw [nameParts?_of_kept hchars h.after hends, Path.nameParts?_eq hends, if_pos hname, hfolder,
    hlast, String.toList_ofList, h.stem.cutName_reverse]
  rfl

theorem cutAt_of_parts {before stem suffix after : List Char}
    (htext : p.chars = before ++ (stem ++ suffix) ++ after) (hbefore : Leads before)
    (hname : IsName (String.ofList (stem ++ suffix))) (hstem : StemCut stem suffix)
    (hafter : Trailing after) : p.CutAt ⟨before, stem, suffix, after⟩ :=
  ⟨htext, hbefore, hname, hstem, hafter⟩

theorem leads_folder (q : Path) : Leads q.folder.chars := by
  rw [← lead_folder]
  exact lead_cases q.folder

theorem cutAt_of_nameParts? (h : p.nameParts? = some n) : p.CutAt n := by
  obtain ⟨q, after, hchars, hafter, hq⟩ := exists_kept p
  rw [nameParts?_of_kept hchars hafter hq, Path.nameParts?_eq hq] at h
  by_cases hname : IsName q.lastName
  · obtain ⟨stem, suffix, hparts, hstem⟩ := exists_stemCut hname.toList_ne_nil
    have hlast : IsName (String.ofList (stem ++ suffix)) := by
      rw [← hparts, String.ofList_toList]
      exact hname
    rw [if_pos hname, hparts, hstem.cutName_reverse] at h
    simp only [Option.map_some, Option.some.injEq] at h
    rw [← h]
    apply cutAt_of_parts _ (leads_folder q) hlast hstem hafter
    rw [hchars, chars_eq q, hparts]
  · rw [if_neg hname] at h
    cases h

/-- The cut that is computed is the only one. -/
theorem nameParts?_eq_some_iff : p.nameParts? = some n ↔ p.CutAt n :=
  ⟨cutAt_of_nameParts?, CutAt.nameParts?_eq⟩

theorem CutAt.unique (h : p.CutAt n) (h' : p.CutAt n') : n = n' :=
  Option.some.inj (h.nameParts?_eq.symm.trans h'.nameParts?_eq)

/-- Behind a slash, a last name that is empty or a dot would have been passed over. -/
theorem EndsInName.not_isName_cases {q : Path} (hq : q.EndsInName) (hname : ¬IsName q.lastName) :
    q.lastName.toList = ['.', '.'] ∨
      q.folder.chars = [] ∧ (q.lastName.toList = [] ∨ q.lastName.toList = ['.']) := by
  by_cases hdots : q.lastName = ".."
  · left
    rw [hdots]
    rfl
  · have hlast : q.lastName.toList = [] ∨ q.lastName.toList = ['.'] := by
      by_contra hne
      rw [not_or] at hne
      refine hname ⟨q.lastName_no_slash, fun he => hne.1 ?_, fun he => hne.2 ?_, hdots⟩
      · rw [he]
        rfl
      · rw [he]
        rfl
    refine .inr ⟨?_, hlast⟩
    rcases leads_folder q with hnil | ⟨t, ht⟩
    · exact hnil
    · have hends := q.chars_eq
      rw [ht] at hends
      rcases hlast with he | he
      · rw [he] at hends
        exact absurd ⟨t, by rw [hends]; simp⟩ hq.1
      · rw [he] at hends
        exact absurd ⟨t, by rw [hends]; simp⟩ hq.2

theorem endsInName_dots (before : List Char) : (ofChars (before ++ ['.', '.'])).EndsInName := by
  rw [EndsInName, chars_ofChars]
  constructor
  · rintro ⟨s, hs⟩
    simpa using congrArg List.getLast? hs
  · rintro ⟨s, hs⟩
    simpa using congrArg (fun t => t.dropLast.getLast?) hs

theorem nameless_of_nameParts? (h : p.nameParts? = none) : p.Nameless := by
  obtain ⟨q, after, hchars, hafter, hq⟩ := exists_kept p
  rw [nameParts?_of_kept hchars hafter hq, Path.nameParts?_eq hq] at h
  have hname : ¬IsName q.lastName := by
    intro hname
    rw [if_pos hname] at h
    cases h
  refine ⟨q.folder.chars, q.lastName.toList, after, ?_, leads_folder q, hafter,
    hq.not_isName_cases hname⟩
  rw [hchars, ← chars_eq]

theorem Nameless.nameParts?_eq (h : p.Nameless) : p.nameParts? = none := by
  obtain ⟨before, last, after, hchars, hbefore, hafter, hlast⟩ := h
  have hslash : '/' ∉ last := by
    rcases hlast with rfl | ⟨-, rfl | rfl⟩ <;> decide
  obtain ⟨-, hname⟩ := folder_lastName_of_chars hbefore hslash
  have hends : (ofChars (before ++ last)).EndsInName := by
    rcases hlast with rfl | ⟨rfl, rfl | rfl⟩
    · exact endsInName_dots before
    · decide
    · decide
  have hnot : ¬IsName (ofChars (before ++ last)).lastName := by
    rw [hname]
    rcases hlast with rfl | ⟨-, rfl | rfl⟩ <;> decide
  have hkept : p.chars = (ofChars (before ++ last)).chars ++ after := by
    rw [chars_ofChars, hchars]
  rw [nameParts?_of_kept hkept hafter hends, Path.nameParts?_eq hends, if_neg hnot]
  rfl

theorem nameless_iff : p.Nameless ↔ ∀ n, ¬p.CutAt n := by
  constructor
  · intro h n hn
    have hnone := h.nameParts?_eq
    rw [hn.nameParts?_eq] at hnone
    cases hnone
  · intro h
    apply nameless_of_nameParts?
    cases hn : p.nameParts? with
    | none => rfl
    | some n => exact absurd (cutAt_of_nameParts? hn) (h n)

end Cut

/-! ## 4. Another extension -/

/-- A text that can be the extension of a file name: no dot cuts it, and no slash ends it. -/
structure IsExtension (e : String) : Prop where
  ne_empty : e ≠ ""
  no_dot : '.' ∉ e.toList
  no_slash : '/' ∉ e.toList

section Extension

variable {p : Path} {n : NameParts} {e e' : String}

theorem Nameless.withExtension_eq (h : p.Nameless) (e : String) : p.withExtension e = p := by
  rw [withExtension, h.nameParts?_eq]

/-- The stem is the folder itself and nothing follows the name: the name goes, and its dot with the
one of the extension is left. -/
theorem CutAt.withExtension_dot (h : p.CutAt n) (hstem : n.stem = ['.']) (hafter : n.after = [])
    (e : String) : p.withExtension e = ofChars (n.before ++ ['.', '.']) := by
  rw [withExtension, h.nameParts?_eq]
  exact if_pos ⟨hstem, hafter⟩

theorem CutAt.withExtension_eq (h : p.CutAt n) (hstem : ¬(n.stem = ['.'] ∧ n.after = []))
    (e : String) : p.withExtension e = ofChars (n.before ++ n.stem ++ '.' :: e.toList) := by
  rw [withExtension, h.nameParts?_eq]
  exact if_neg hstem

theorem nameless_dots {before : List Char} (h : Leads before) :
    (ofChars (before ++ ['.', '.'])).Nameless :=
  ⟨before, ['.', '.'], [], by rw [chars_ofChars, List.append_nil], h, .nil, .inl rfl⟩

theorem isName_stem_extension {stem : List Char} (hne : stem ≠ []) (hslash : '/' ∉ stem)
    (he : IsExtension e) : IsName (String.ofList (stem ++ '.' :: e.toList)) := by
  apply isName_of_length
  · rw [String.toList_ofList, List.mem_append, List.mem_cons, not_or, not_or]
    exact ⟨hslash, by decide, he.no_slash⟩
  · have hstem := List.length_pos_iff.mpr hne
    have hext : 0 < e.toList.length :=
      List.length_pos_iff.mpr fun hnil => he.ne_empty (String.toList_eq_nil_iff.mp hnil)
    rw [← String.length_toList, String.toList_ofList, List.length_append, List.length_cons]
    omega

/-- The new file name is cut behind the same stem. -/
theorem CutAt.withExtension (h : p.CutAt n) (hstem : ¬(n.stem = ['.'] ∧ n.after = []))
    (he : IsExtension e) :
    (p.withExtension e).CutAt ⟨n.before, n.stem, '.' :: e.toList, []⟩ := by
  have hslash : '/' ∉ n.stem ++ n.suffix := by simpa using h.name.1
  have hname := isName_stem_extension h.stem.ne_nil
    (fun hc => hslash (List.mem_append_left _ hc)) he
  rw [h.withExtension_eq hstem]
  refine ⟨?_, h.before, hname, .dotted h.stem.ne_nil he.no_dot, .nil⟩
  rw [chars_ofChars, List.append_nil, List.append_assoc]

/-- Only the last extension counts. -/
theorem withExtension_withExtension (he : IsExtension e) (hstem : ∀ n, p.CutAt n → n.stem ≠ ['.'])
    (e' : String) : (p.withExtension e).withExtension e' = p.withExtension e' := by
  by_cases hname : p.Nameless
  · rw [hname.withExtension_eq]
  · rw [nameless_iff, not_forall_not] at hname
    obtain ⟨n, hn⟩ := hname
    have hdot : ¬(n.stem = ['.'] ∧ n.after = []) := fun hdot => hstem n hn hdot.1
    have hdot' : ¬(n.stem = ['.'] ∧ ([] : List Char) = []) := fun hdot => hstem n hn hdot.1
    rw [(hn.withExtension hdot he).withExtension_eq hdot', hn.withExtension_eq hdot]

theorem CutAt.chars_withExtension (h : p.CutAt n) (hstem : n.stem ≠ ['.']) (e : String) :
    (p.withExtension e).chars = n.before ++ n.stem ++ '.' :: e.toList := by
  rw [h.withExtension_eq fun hdot => hstem hdot.1, chars_ofChars]

/-- Another extension changes nothing if there is no file name, or it ends in that extension. -/
theorem withExtension_eq_self_iff (he : IsExtension e) :
    p.withExtension e = p ↔
      p.Nameless ∨ ∃ n, p.CutAt n ∧ n.stem ≠ ['.'] ∧ n.suffix = '.' :: e.toList ∧ n.after = [] := by
  constructor
  · intro heq
    refine or_iff_not_imp_left.mpr fun hname => ?_
    rw [nameless_iff, not_forall_not] at hname
    obtain ⟨n, hn⟩ := hname
    by_cases hdot : n.stem = ['.'] ∧ n.after = []
    · -- What is left has no file name.
      rw [hn.withExtension_dot hdot.1 hdot.2] at heq
      have hnone := nameless_dots hn.before
      rw [heq] at hnone
      exact absurd hn (nameless_iff.mp hnone n)
    · have hcut := hn.withExtension hdot he
      rw [heq] at hcut
      have hparts := hn.unique hcut
      refine ⟨n, hn, ?_, by rw [hparts], by rw [hparts]⟩
      rw [hparts] at hdot
      rw [hparts]
      exact fun hstem => hdot ⟨hstem, rfl⟩
  · rintro (hname | ⟨n, hn, hstem, hsuffix, hafter⟩)
    · exact hname.withExtension_eq e
    · apply eq_of_chars
      rw [hn.chars_withExtension hstem, hn.text, hsuffix, hafter, List.append_nil,
        List.append_assoc]

theorem withExtension_eq_self_iff_of_stem (he : IsExtension e)
    (hstem : ∀ n, p.CutAt n → n.stem ≠ ['.']) :
    p.withExtension e = p ↔
      p.Nameless ∨ ∃ n, p.CutAt n ∧ n.suffix = '.' :: e.toList ∧ n.after = [] := by
  rw [withExtension_eq_self_iff he]
  refine or_congr_right (exists_congr fun n => and_congr_right fun hn => ?_)
  exact and_iff_right (hstem n hn)

end Extension

/-! ## 5. Sources and binaries -/

/-- The names of a source and its binary are made from each other. -/
structure Paired (p : Path) : Prop where
  binary_of_source : p.treeSource.treeBinary = p.treeBinary
  source_of_binary : p.treeBinary.treeSource = p.treeSource
  source_of_source : p.treeSource.treeSource = p.treeSource
  binary_of_binary : p.treeBinary.treeBinary = p.treeBinary
  named : ∀ n, p.CutAt n →
    p.treeSource.chars = n.before ++ n.stem ++ ".dts".toList ∧
      p.treeBinary.chars = n.before ++ n.stem ++ ".dtb".toList ∧ p.treeBinary ≠ p.treeSource
  nameless : p.Nameless → p.treeSource = p ∧ p.treeBinary = p
  source_eq_self_iff :
    p.treeSource = p ↔ p.Nameless ∨ ∃ n, p.CutAt n ∧ n.suffix = ".dts".toList ∧ n.after = []
  binary_eq_self_iff :
    p.treeBinary = p ↔ p.Nameless ∨ ∃ n, p.CutAt n ∧ n.suffix = ".dtb".toList ∧ n.after = []

theorem isExtension_dts : IsExtension "dts" :=
  ⟨by decide, by decide, by decide⟩

theorem isExtension_dtb : IsExtension "dtb" :=
  ⟨by decide, by decide, by decide⟩

section Paired

variable {p : Path} {n : NameParts}

theorem paired_of_stem (h : ∀ n, p.CutAt n → n.stem ≠ ['.']) : p.Paired where
  binary_of_source := withExtension_withExtension isExtension_dts h "dtb"
  source_of_binary := withExtension_withExtension isExtension_dtb h "dts"
  source_of_source := withExtension_withExtension isExtension_dts h "dts"
  binary_of_binary := withExtension_withExtension isExtension_dtb h "dtb"
  named := by
    intro n hn
    have hsource := hn.chars_withExtension (h n hn) "dts"
    have hbinary := hn.chars_withExtension (h n hn) "dtb"
    refine ⟨hsource, hbinary, fun heq => ?_⟩
    have hchars : p.treeBinary.chars = p.treeSource.chars := congrArg chars heq
    rw [treeBinary, treeSource, hsource, hbinary] at hchars
    exact absurd (List.append_cancel_left hchars) (by decide)
  nameless := fun hname => ⟨hname.withExtension_eq "dts", hname.withExtension_eq "dtb"⟩
  source_eq_self_iff := withExtension_eq_self_iff_of_stem isExtension_dts h
  binary_eq_self_iff := withExtension_eq_self_iff_of_stem isExtension_dtb h

/-- A name behind a single dot that nothing follows: source and binary are the folder above. -/
theorem CutAt.trees_of_dot (h : p.CutAt n) (hstem : n.stem = ['.']) (hafter : n.after = []) :
    p.treeSource = ofChars (n.before ++ "..".toList) ∧
      p.treeBinary = ofChars (n.before ++ "..".toList) :=
  ⟨h.withExtension_dot hstem hafter "dts", h.withExtension_dot hstem hafter "dtb"⟩

/-- A name behind a single dot that a slash follows: source and binary have their names, which nothing
follows any more. -/
theorem CutAt.trees_of_dot_slash (h : p.CutAt n) (hstem : n.stem = ['.']) (hafter : n.after ≠ []) :
    p.treeSource = ofChars (n.before ++ "..dts".toList) ∧
      p.treeBinary = ofChars (n.before ++ "..dtb".toList) ∧
      p.treeSource.treeBinary = ofChars (n.before ++ "..".toList) ∧
      p.treeBinary.treeSource = ofChars (n.before ++ "..".toList) := by
  have hdot : ¬(n.stem = ['.'] ∧ n.after = []) := fun hdot => hafter hdot.2
  have hsource := h.withExtension hdot isExtension_dts
  have hbinary := h.withExtension hdot isExtension_dtb
  refine ⟨?_, ?_, hsource.withExtension_dot hstem rfl "dtb", hbinary.withExtension_dot hstem rfl "dts"⟩
  · rw [treeSource, h.withExtension_eq hdot, hstem, List.append_assoc]
    rfl
  · rw [treeBinary, h.withExtension_eq hdot, hstem, List.append_assoc]
    rfl

end Paired

/-- A path is cut at its file name in one way, or has none.  Its source and its binary are paired
exactly if the stem of the name is not a single dot. -/
theorem paired_iff (p : Path) :
    (p.Paired ↔ ∀ n, p.CutAt n → n.stem ≠ ['.']) ∧
      (p.Nameless ↔ ∀ n, ¬p.CutAt n) ∧ (∀ n n', p.CutAt n → p.CutAt n' → n = n') ∧
      ∀ n, p.CutAt n → n.stem = ['.'] →
        (n.after = [] → p.treeSource = ofChars (n.before ++ "..".toList) ∧
          p.treeBinary = ofChars (n.before ++ "..".toList)) ∧
        (n.after ≠ [] → p.treeSource = ofChars (n.before ++ "..dts".toList) ∧
          p.treeBinary = ofChars (n.before ++ "..dtb".toList) ∧
          p.treeSource.treeBinary = ofChars (n.before ++ "..".toList) ∧
          p.treeBinary.treeSource = ofChars (n.before ++ "..".toList)) := by
  refine ⟨⟨fun h n hn hstem => ?_, paired_of_stem⟩, nameless_iff, fun _ _ => CutAt.unique,
    fun n hn hstem => ⟨hn.trees_of_dot hstem, hn.trees_of_dot_slash hstem⟩⟩
  by_cases hafter : n.after = []
  · obtain ⟨hsource, hbinary⟩ := hn.trees_of_dot hstem hafter
    exact (h.named n hn).2.2 (hbinary.trans hsource.symm)
  · obtain ⟨-, hbinary, hagain, -⟩ := hn.trees_of_dot_slash hstem hafter
    have hchars := congrArg chars (hagain.symm.trans (h.binary_of_source.trans hbinary))
    rw [chars_ofChars, chars_ofChars] at hchars
    exact absurd (List.append_cancel_left hchars) (by decide)

/-- A hidden name with two extensions has its source beside it.  Of a name behind a single dot, the
source is named like any other, and the binary of that source is the folder above. -/
theorem hidden_tree_is_paired :
    ((⟨"a//.b.c.x/."⟩ : Path).Paired ∧ (⟨"a//.b.c.x/."⟩ : Path).treeSource = ⟨"a//.b.c.dts"⟩) ∧
      ¬(⟨"..x/"⟩ : Path).Paired ∧ (⟨"..x/"⟩ : Path).treeSource = ⟨"..dts"⟩ ∧
      (⟨"..x/"⟩ : Path).treeSource.treeBinary = ⟨".."⟩ := by
  have hhidden : (⟨"a//.b.c.x/."⟩ : Path).CutAt ⟨"a//".toList, ".b.c".toList, ".x".toList,
      "/.".toList⟩ := nameParts?_eq_some_iff.mp rfl
  have hdot : (⟨"..x/"⟩ : Path).CutAt ⟨[], ['.'], ".x".toList, ['/']⟩ :=
    nameParts?_eq_some_iff.mp rfl
  have hpaired : (⟨"a//.b.c.x/."⟩ : Path).Paired := by
    apply (paired_iff _).1.mpr
    intro n hn
    rw [hn.unique hhidden]
    decide
  obtain ⟨hiff, -, -, hshapes⟩ := paired_iff ⟨"..x/"⟩
  obtain ⟨hsource, -, hagain, -⟩ := (hshapes _ hdot rfl).2 (by decide)
  refine ⟨⟨hpaired, eq_of_chars (hpaired.named _ hhidden).1⟩, fun h => ?_, hsource, hagain⟩
  exact hiff.mp h _ hdot rfl

/-- The source `..dts` is not its own source: without its extension it is the folder above. -/
theorem not_every_path_is_paired : ¬∀ p : Path, p.Paired := by
  intro h
  have hcut : (⟨"..dts"⟩ : Path).CutAt ⟨[], ['.'], ".dts".toList, []⟩ :=
    nameParts?_eq_some_iff.mp rfl
  have hself := (h ⟨"..dts"⟩).source_eq_self_iff.mpr (.inr ⟨_, hcut, rfl, rfl⟩)
  exact absurd hself (by decide)

end VirtBoard.Path
