import VirtBoard.DeviceTree.Toolchain

/-!
# Names in a directory

What the text of a directory joined with a plain name says: its segments are those of the directory
and the name, and it is absolute when the directory is.
-/

namespace VirtBoard.Path

/-- A text that names an entry of a directory. -/
def IsName (name : String) : Prop :=
  '/' ∉ name.toList ∧ name ≠ "" ∧ name ≠ "." ∧ name ≠ ".."

instance (name : String) : Decidable (IsName name) :=
  inferInstanceAs (Decidable (_ ∧ _ ∧ _ ∧ _))

theorem IsName.toList_ne_nil {name : String} (h : IsName name) : name.toList ≠ [] :=
  fun he => h.2.1 (String.toList_eq_nil_iff.mp he)

theorem not_isAbsolute_of_no_slash {name : String} (h : '/' ∉ name.toList) :
    (⟨name⟩ : Path).isAbsolute = false := by
  unfold isAbsolute chars
  cases hc : name.toList with
  | nil => rfl
  | cons c s =>
    have hslash : c ≠ '/' := fun he => h (by rw [hc, he]; exact List.mem_cons_self)
    simpa using hslash

theorem IsName.not_isAbsolute {name : String} (h : IsName name) :
    (⟨name⟩ : Path).isAbsolute = false :=
  not_isAbsolute_of_no_slash h.1

/-! ## 1. The text of a joined path -/

theorem exists_of_endsInSlash {p : Path} (h : p.endsInSlash = true) :
    ∃ s, p.chars = s ++ ['/'] := by
  rw [endsInSlash, beq_iff_eq] at h
  exact List.getLast?_eq_some_iff.mp h

theorem chars_eq_nil {p : Path} (h : p.text = "") : p.chars = [] := by
  rw [chars, h]
  rfl

/-- What stands before a name joined to a directory. -/
def lead (dir : Path) : List Char :=
  if dir.text = "" ∨ dir.endsInSlash then dir.chars else dir.chars ++ ['/']

theorem chars_join_of_relative {p : Path} (h : p.isAbsolute = false) (dir : Path) :
    (dir.join p).chars = lead dir ++ p.chars := by
  unfold join lead
  rw [if_neg (by simp [h])]
  split
  · rw [chars, String.toList_append]
    rfl
  · rw [chars, String.toList_append, String.toList_append]
    rfl

theorem chars_join {name : String} (h : IsName name) (dir : Path) :
    (dir.join ⟨name⟩).chars = lead dir ++ name.toList :=
  chars_join_of_relative h.not_isAbsolute dir

-- The text before a name is empty or ends in a slash.
theorem lead_cases (dir : Path) : lead dir = [] ∨ ∃ s, lead dir = s ++ ['/'] := by
  unfold lead
  split
  next h =>
    rcases h with h | h
    · exact Or.inl (chars_eq_nil h)
    · exact Or.inr (exists_of_endsInSlash h)
  next => exact Or.inr ⟨dir.chars, rfl⟩

/-! ## 2. Its components -/

theorem segments_join_of_relative {p : Path} (h : p.isAbsolute = false) (dir : Path) :
    (dir.join p).segments = dir.segments ++ p.segments := by
  have hlead : ((lead dir ++ p.chars).splitOn '/').filter (· ≠ []) =
      (dir.chars.splitOn '/').filter (· ≠ []) ++ (p.chars.splitOn '/').filter (· ≠ []) := by
    unfold lead
    split
    next hd =>
      rcases hd with hd | hd
      · rw [chars_eq_nil hd, List.nil_append]
        simp
      · obtain ⟨s, hs⟩ := exists_of_endsInSlash hd
        rw [hs, List.append_assoc, List.singleton_append, List.splitOn_append_cons_self,
          List.splitOn_append_cons_self, List.filter_append, List.filter_append]
        simp
    next =>
      rw [List.append_assoc, List.singleton_append, List.splitOn_append_cons_self,
        List.filter_append]
  unfold segments
  rw [chars_join_of_relative h, hlead, List.map_append]

theorem segments_of_no_slash {name : String} (h : '/' ∉ name.toList) (hne : name ≠ "") :
    (⟨name⟩ : Path).segments = [name] := by
  have hchars : name.toList ≠ [] := fun he => hne (String.toList_eq_nil_iff.mp he)
  unfold segments chars
  rw [List.splitOn_eq_singleton h]
  simp [hchars]

theorem segments_name {name : String} (h : IsName name) : (⟨name⟩ : Path).segments = [name] :=
  segments_of_no_slash h.1 h.2.1

theorem segments_join {name : String} (h : IsName name) (dir : Path) :
    (dir.join ⟨name⟩).segments = dir.segments ++ [name] := by
  rw [segments_join_of_relative h.not_isAbsolute, segments_name h]

theorem getLast?_segments_join {name : String} (h : IsName name) (dir : Path) :
    (dir.join ⟨name⟩).segments.getLast? = some name := by
  rw [segments_join h, List.getLast?_append, List.getLast?_singleton]
  rfl

theorem endsInSlash_join_of_relative {p : Path} (h : p.isAbsolute = false) (hp : p.chars ≠ [])
    (dir : Path) : (dir.join p).endsInSlash = p.endsInSlash := by
  obtain ⟨c, hc⟩ := Option.ne_none_iff_exists'.mp fun he => hp (List.getLast?_eq_none_iff.mp he)
  rw [endsInSlash, chars_join_of_relative h, List.getLast?_append, hc, endsInSlash, hc]
  rfl

theorem endsInSlash_of_no_slash {name : String} (h : '/' ∉ name.toList) :
    (⟨name⟩ : Path).endsInSlash = false := by
  have hslash : name.toList.getLast? ≠ some '/' := fun he => h (List.mem_of_getLast? he)
  simpa [endsInSlash, chars] using hslash

theorem endsInSlash_join {name : String} (h : IsName name) (dir : Path) :
    (dir.join ⟨name⟩).endsInSlash = false := by
  rw [endsInSlash_join_of_relative h.not_isAbsolute h.toList_ne_nil, endsInSlash_of_no_slash h.1]

theorem steps_join_of_relative {p : Path} (h : p.isAbsolute = false) (hp : p.chars ≠ [])
    (dir : Path) : (dir.join p).steps = dir.segments ++ p.steps := by
  rw [steps, steps, segments_join_of_relative h, endsInSlash_join_of_relative h hp,
    List.append_assoc]

theorem steps_join_of_no_slash {name : String} (h : '/' ∉ name.toList) (hne : name ≠ "")
    (dir : Path) : (dir.join ⟨name⟩).steps = dir.segments ++ [name] := by
  have hchars : (⟨name⟩ : Path).chars ≠ [] := fun he => hne (String.toList_eq_nil_iff.mp he)
  rw [steps_join_of_relative (not_isAbsolute_of_no_slash h) hchars, steps,
    segments_of_no_slash h hne, endsInSlash_of_no_slash h]
  rfl

theorem steps_join {name : String} (h : IsName name) (dir : Path) :
    (dir.join ⟨name⟩).steps = dir.segments ++ [name] :=
  steps_join_of_no_slash h.1 h.2.1 dir

theorem isAbsolute_join_of_relative {p : Path} (h : p.isAbsolute = false) (dir : Path) :
    (dir.join p).isAbsolute = dir.isAbsolute := by
  unfold isAbsolute
  rw [chars_join_of_relative h]
  unfold lead
  split
  next hd =>
    rcases hd with hd | hd
    · rw [chars_eq_nil hd, List.nil_append]
      exact h
    · obtain ⟨s, hs⟩ := exists_of_endsInSlash hd
      rw [hs]
      cases s <;> rfl
  next hd =>
    cases hc : dir.chars with
    | nil => exact absurd (Or.inl (String.toList_eq_nil_iff.mp hc)) hd
    | cons c s => rfl

theorem isAbsolute_join {name : String} (h : IsName name) (dir : Path) :
    (dir.join ⟨name⟩).isAbsolute = dir.isAbsolute :=
  isAbsolute_join_of_relative h.not_isAbsolute dir

theorem text_join_of_relative {p : Path} (h : p.isAbsolute = false) (dir : Path) :
    (dir.join p).text = String.ofList (lead dir) ++ p.text := by
  apply String.toList_injective
  rw [String.toList_append, String.toList_ofList]
  exact chars_join_of_relative h dir

theorem text_join {name : String} (h : IsName name) (dir : Path) :
    (dir.join ⟨name⟩).text = String.ofList (lead dir) ++ name :=
  text_join_of_relative h.not_isAbsolute dir

theorem append_join {name suffix : String} (h : IsName name) (hn : IsName (name ++ suffix))
    (dir : Path) :
    (dir.join ⟨name⟩).append suffix = dir.join ⟨name ++ suffix⟩ := by
  have htext := (text_join hn dir).symm
  rw [← String.append_assoc, ← text_join h dir] at htext
  exact congrArg Path.mk htext

/-! ## 3. Its extension -/

theorem takeWhile_lead (s : List Char) (hs : '/' ∉ s) (dir : Path) :
    (s ++ (lead dir).reverse).takeWhile (· ≠ '/') = s ∧
      (s ++ (lead dir).reverse).dropWhile (· ≠ '/') = (lead dir).reverse := by
  have hpos : ∀ c ∈ s, decide (c ≠ '/') = true := by
    intro c hc
    simp only [decide_eq_true_eq]
    exact fun he => hs (he ▸ hc)
  rw [List.takeWhile_append_of_pos hpos, List.dropWhile_append_of_pos hpos]
  rcases lead_cases dir with h | ⟨t, h⟩
  · rw [h]
    exact ⟨List.append_nil s, rfl⟩
  · rw [h, List.reverse_append]
    exact ⟨List.append_nil s, rfl⟩

theorem dropTrailing_cons {c : Char} (hslash : c ≠ '/') (hdot : c ≠ '.') (s : List Char) :
    dropTrailing (c :: s) = c :: s := by
  rw [dropTrailing.eq_def]
  split
  · next he => exact absurd (List.cons.inj he).1 hslash
  · next he => exact absurd (List.cons.inj he).1 hdot
  · rfl

theorem cutName_reverse {stem ext : List Char} (hstem : stem ≠ []) (hext : '.' ∉ ext) :
    cutName (stem ++ '.' :: ext).reverse = (stem, '.' :: ext) := by
  have hdots : ∀ c ∈ ext.reverse, decide (c ≠ '.') = true := by
    intro c hc
    simp only [decide_eq_true_eq]
    exact fun he => hext (by simpa [he] using hc)
  have hrev : (stem ++ '.' :: ext).reverse = ext.reverse ++ '.' :: stem.reverse := by simp
  have hdrop : (ext.reverse ++ '.' :: stem.reverse).dropWhile (· ≠ '.') =
      '.' :: stem.reverse := by
    rw [List.dropWhile_append_of_pos hdots, List.dropWhile_cons_of_neg (by simp)]
  have htake : (ext.reverse ++ '.' :: stem.reverse).takeWhile (· ≠ '.') = ext.reverse := by
    rw [List.takeWhile_append_of_pos hdots, List.takeWhile_cons_of_neg (by simp),
      List.append_nil]
  obtain ⟨c, s, hs⟩ : ∃ c s, stem.reverse = c :: s :=
    List.exists_cons_of_ne_nil (by simpa using hstem)
  unfold cutName
  rw [hrev, hdrop, htake, hs]
  show ((c :: s).reverse, '.' :: ext.reverse.reverse) = _
  rw [← hs, List.reverse_reverse, List.reverse_reverse]

theorem nameParts?_join {stem ext : List Char} (h : IsName (String.ofList (stem ++ '.' :: ext)))
    (hstem : stem ≠ []) (hext : ext ≠ [] ∧ '.' ∉ ext) (dir : Path) :
    (dir.join ⟨String.ofList (stem ++ '.' :: ext)⟩).nameParts? =
      some ⟨lead dir, stem, '.' :: ext, []⟩ := by
  have hslash : '/' ∉ (stem ++ '.' :: ext).reverse := by
    rw [List.mem_reverse]
    simpa using h.1
  have hchars : (dir.join ⟨String.ofList (stem ++ '.' :: ext)⟩).chars =
      lead dir ++ (stem ++ '.' :: ext) := by
    rw [chars_join h, String.toList_ofList]
  -- Nothing follows the name, because its extension ends in neither a slash nor a dot.
  have hkept : dropTrailing ((stem ++ '.' :: ext).reverse ++ (lead dir).reverse) =
      (stem ++ '.' :: ext).reverse ++ (lead dir).reverse := by
    obtain ⟨s, c, rfl⟩ := (List.eq_nil_or_concat ext).resolve_left hext.1
    have hc : c ≠ '/' ∧ c ≠ '.' := by
      constructor
      · exact fun he => hslash (by simp [he])
      · exact fun he => hext.2 (by simp [he])
    simp only [List.concat_eq_append, List.reverse_append, List.reverse_cons, List.reverse_nil,
      List.nil_append, List.cons_append, List.append_assoc]
    exact dropTrailing_cons hc.1 hc.2 _
  have hlong : ¬((stem ++ '.' :: ext).reverse = [] ∨ (stem ++ '.' :: ext).reverse = ['.'] ∨
      (stem ++ '.' :: ext).reverse = ['.', '.']) := by
    have hs := List.length_pos_iff.mpr hstem
    have he := List.length_pos_iff.mpr hext.1
    have hlen : 3 ≤ (stem ++ '.' :: ext).reverse.length := by
      rw [List.length_reverse, List.length_append, List.length_cons]
      omega
    rintro (h | h | h) <;> rw [h] at hlen <;> exact absurd hlen (by decide)
  obtain ⟨hname, hbefore⟩ := takeWhile_lead _ hslash dir
  unfold nameParts?
  simp only [hchars, @List.reverse_append _ (lead dir), hkept, hname, hbefore,
    cutName_reverse hstem hext.2, if_neg hlong]
  have hall : (lead dir ++ (stem ++ '.' :: ext)).drop
      ((stem ++ '.' :: ext).reverse ++ (lead dir).reverse).length = [] := by
    apply List.drop_eq_nil_of_le
    simp only [List.length_append, List.length_reverse]
    omega
  rw [hall, List.reverse_reverse]

/-- A file name that is a stem with an extension gets another extension in its place. -/
theorem withExtension_join {stem old : List Char} {new : String}
    (hold : IsName (String.ofList (stem ++ '.' :: old)))
    (hnew : IsName (String.ofList (stem ++ '.' :: new.toList)))
    (hstem : stem ≠ [] ∧ stem ≠ ['.']) (hext : old ≠ [] ∧ '.' ∉ old) (dir : Path) :
    (dir.join ⟨String.ofList (stem ++ '.' :: old)⟩).withExtension new =
      dir.join ⟨String.ofList (stem ++ '.' :: new.toList)⟩ := by
  rw [withExtension, nameParts?_join hold hstem.1 hext]
  simp only [hstem.2, false_and, ↓reduceIte]
  rw [ofChars, Path.mk.injEq, text_join hnew, ← String.ofList_append, List.append_assoc]

end VirtBoard.Path
