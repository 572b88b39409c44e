import Mathlib.Data.List.Nodup
import VirtBoard.Proofs.CommandLine.Preparation
import VirtBoard.Proofs.Text.Blanks

/-!
# The launcher's own options

The launcher's options may be given in any order, with their values attached or as words of their
own.  They end at `--` or at the first word that is none of them, and what comes behind is left to
the board, whatever it looks like.
-/

namespace VirtBoard.CommandLine

/-! ## 1. Words with two dashes -/

/-- The word that gives a name, and maybe a value with it. -/
def longWord (name : String) : Option String → String
  | none => "--" ++ name
  | some value => "--" ++ name ++ "=" ++ value

/-- What stands in a word behind its name. -/
def valueChars : Option String → List Char
  | none => []
  | some value => '=' :: value.toList

theorem toList_longWord (name : String) (attached : Option String) :
    (longWord name attached).toList = '-' :: '-' :: (name.toList ++ valueChars attached) := by
  cases attached <;> simp [longWord, valueChars, String.toList_append]

theorem longOption?_longWord {name : String} (h : '=' ∉ name.toList) (attached : Option String) :
    longOption? (longWord name attached) = some (name, attached) := by
  have hrun : ∀ c ∈ name.toList, decide (c ≠ '=') = true := fun c hc =>
    decide_eq_true fun he => h (he ▸ hc)
  have htail : ∀ c ∈ (valueChars attached).head?, decide (c ≠ '=') = false := by
    cases attached <;> simp [valueChars]
  unfold longOption?
  split
  next s hs =>
    rw [toList_longWord] at hs
    obtain rfl := (List.cons.inj (List.cons.inj hs).2).2
    dsimp only
    rw [Text.takeWhile_run hrun htail, Text.dropWhile_run hrun htail]
    cases attached <;> simp [valueChars]
  next hnot => exact absurd (toList_longWord name attached) (hnot _)

theorem eq_longWord_of_longOption? {word name : String} {attached : Option String}
    (h : longOption? word = some (name, attached)) :
    '=' ∉ name.toList ∧ word = longWord name attached := by
  unfold longOption? at h
  split at h
  next s hword =>
    have hname : '=' ∉ s.takeWhile (· ≠ '=') := fun hmem => by
      simpa using List.mem_takeWhile_imp hmem
    have hs := s.takeWhile_append_dropWhile (p := (· ≠ '='))
    have hhead := List.head?_dropWhile_not (· ≠ '=') s
    dsimp only at h
    split at h
    next hrest =>
      obtain ⟨rfl, rfl⟩ := Prod.mk.inj (Option.some.inj h)
      rw [hrest] at hs
      refine ⟨by rwa [String.toList_ofList], String.toList_inj.mp ?_⟩
      rw [toList_longWord, hword, String.toList_ofList, valueChars, hs]
    next c value hrest =>
      obtain ⟨rfl, rfl⟩ := Prod.mk.inj (Option.some.inj h)
      rw [hrest] at hs hhead
      obtain rfl : c = '=' := by simpa using hhead
      refine ⟨by rwa [String.toList_ofList], String.toList_inj.mp ?_⟩
      rw [toList_longWord, hword, String.toList_ofList, valueChars, String.toList_ofList, hs]
  next => cases h

theorem longOption?_eq_some_iff {word name : String} {attached : Option String} :
    longOption? word = some (name, attached) ↔
      '=' ∉ name.toList ∧ word = longWord name attached :=
  ⟨eq_longWord_of_longOption?, fun ⟨hname, hword⟩ => hword ▸ longOption?_longWord hname attached⟩

namespace Launcher

open VirtBoard.Action Board

/-! ## 2. Own words -/

def PathOption.name : PathOption → String
  | .root => "rtt-root"
  | .qemu => "qemu"
  | .qemuImg => "qemu-img"
  | .kernel => "kernel"
  | .compiler => "dtc"
  | .preprocessor => "cpp"

def Switch.name : Switch → String
  | .dryRun => "dry-run"
  | .json => "json"

/-- The names behind two dashes that the launcher knows. -/
def ownNames : List String :=
  ["rtt-root", "qemu", "qemu-img", "kernel", "dtc", "cpp", "dry-run", "json", "help"]

/-- A call for help with one dash, in which the letter may be repeated. -/
def IsShortHelp (word : String) : Prop :=
  ∃ n, word.toList = '-' :: List.replicate (n + 1) 'h'

/-- The launcher reads a word as one of its own: the end of its options, a call for help, or one of
its names, with a value or without. -/
def IsOwnWord (word : String) : Prop :=
  word = "--" ∨ IsShortHelp word ∨ ∃ name ∈ ownNames, ∃ attached, word = longWord name attached

theorem isShortHelp_iff {word : String} : isShortHelp word = true ↔ IsShortHelp word := by
  unfold isShortHelp
  constructor
  · intro h
    split at h
    next s hword =>
      have hall : ∀ c ∈ s, c = 'h' := by simpa using h
      refine ⟨s.length, ?_⟩
      rw [hword, List.replicate_succ, ← List.eq_replicate_iff.mpr ⟨rfl, hall⟩]
    next => cases h
  · rintro ⟨n, hword⟩
    rw [hword]
    show (List.replicate n 'h').all (· = 'h') = true
    simp

theorem ofName?_name (o : PathOption) : PathOption.ofName? o.name = some o := by
  cases o <;> rfl

theorem ofName?_eq_some_iff {name : String} {o : PathOption} :
    PathOption.ofName? name = some o ↔ name = o.name := by
  constructor
  · intro h
    unfold PathOption.ofName? at h
    split at h <;> cases h <;> rfl
  · rintro rfl
    exact ofName?_name o

theorem noEquals_of_mem_ownNames {name : String} (h : name ∈ ownNames) : '=' ∉ name.toList := by
  have hall : ∀ name ∈ ownNames, '=' ∉ name.toList := by decide
  exact hall name h

theorem mem_ownNames_iff {name : String} :
    name ∈ ownNames ↔
      (∃ o : PathOption, name = o.name) ∨ (∃ s : Switch, name = s.name) ∨ name = "help" := by
  constructor
  · intro h
    simp only [ownNames, List.mem_cons, List.not_mem_nil, or_false] at h
    rcases h with rfl | rfl | rfl | rfl | rfl | rfl | rfl | rfl | rfl
    exacts [Or.inl ⟨.root, rfl⟩, Or.inl ⟨.qemu, rfl⟩, Or.inl ⟨.qemuImg, rfl⟩,
      Or.inl ⟨.kernel, rfl⟩, Or.inl ⟨.compiler, rfl⟩, Or.inl ⟨.preprocessor, rfl⟩,
      Or.inr (Or.inl ⟨.dryRun, rfl⟩), Or.inr (Or.inl ⟨.json, rfl⟩), Or.inr (Or.inr rfl)]
  · rintro (⟨o, rfl⟩ | ⟨s, rfl⟩ | rfl)
    · cases o <;> decide
    · cases s <;> decide
    · decide

theorem name_mem_ownNames (o : PathOption) : o.name ∈ ownNames :=
  mem_ownNames_iff.mpr (Or.inl ⟨o, rfl⟩)

theorem Switch.name_mem_ownNames (s : Switch) : s.name ∈ ownNames :=
  mem_ownNames_iff.mpr (Or.inr (Or.inl ⟨s, rfl⟩))

theorem isOwnWord_iff_of_longOption? {word name : String} {attached : Option String}
    (hend : word ≠ "--") (hhelp : isShortHelp word = false)
    (h : longOption? word = some (name, attached)) : IsOwnWord word ↔ name ∈ ownNames := by
  constructor
  · rintro (hword | hword | ⟨name', hmem, attached', rfl⟩)
    · exact absurd hword hend
    · rw [isShortHelp_iff.mpr hword] at hhelp
      cases hhelp
    · rw [longOption?_longWord (noEquals_of_mem_ownNames hmem)] at h
      obtain ⟨rfl, rfl⟩ := Prod.mk.inj (Option.some.inj h)
      exact hmem
  · exact fun hmem => Or.inr (Or.inr ⟨name, hmem, attached, (longOption?_eq_some_iff.mp h).2⟩)

-- What is left when a word has two dashes is a table of names.
theorem classify_eq_flag_iff_of_longOption? {word name : String} {attached : Option String}
    (hend : word ≠ "--") (hhelp : isShortHelp word = false)
    (h : longOption? word = some (name, attached)) :
    Word.classify word = .flag ↔ name ∉ ownNames := by
  simp only [Word.classify, hend, hhelp, h, ↓reduceIte, Bool.false_eq_true]
  cases hpath : PathOption.ofName? name with
  | some o =>
    obtain rfl := ofName?_eq_some_iff.mp hpath
    exact iff_of_false nofun (not_not.mpr (name_mem_ownNames o))
  | none =>
    have hname : ∀ o : PathOption, name ≠ o.name := fun o ho => by
      rw [ofName?_eq_some_iff.mpr ho] at hpath
      cases hpath
    dsimp only
    split
    case h_7 hhelp hdryRun hjson hhelp' hdryRun' hjson' =>
      refine iff_of_true rfl fun hmem => ?_
      -- Every other name of its own is met with a value or without.
      have hboth {own : String} (hown : name = own)
          (hbare : name = own → attached = none → False)
          (hvalue : ∀ value, name = own → attached = some value → False) : False := by
        cases attached with
        | none => exact hbare hown rfl
        | some value => exact hvalue value hown rfl
      rcases mem_ownNames_iff.mp hmem with ⟨o, ho⟩ | ⟨s, hs⟩ | hname'
      · exact hname o ho
      · cases s with
        | dryRun => exact hboth hs hdryRun hdryRun'
        | json => exact hboth hs hjson hjson'
      · exact hboth hname' hhelp hhelp'
    all_goals exact iff_of_false nofun (not_not.mpr (by decide))

theorem classify_eq_flag_iff {word : String} : Word.classify word = .flag ↔ ¬IsOwnWord word := by
  by_cases hend : word = "--"
  · exact iff_of_false (by simp [Word.classify, hend]) (not_not.mpr (Or.inl hend))
  cases hhelp : isShortHelp word with
  | true =>
    have hown : IsOwnWord word := Or.inr (Or.inl (isShortHelp_iff.mp hhelp))
    exact iff_of_false (by simp [Word.classify, hend, hhelp]) (not_not.mpr hown)
  | false =>
    cases hlong : longOption? word with
    | some parts =>
      rw [classify_eq_flag_iff_of_longOption? hend hhelp hlong,
        isOwnWord_iff_of_longOption? hend hhelp hlong]
    | none =>
      refine iff_of_true (by simp [Word.classify, hend, hhelp, hlong]) ?_
      rintro (hword | hword | ⟨name, hmem, attached, rfl⟩)
      · exact hend hword
      · rw [isShortHelp_iff.mpr hword] at hhelp
        cases hhelp
      · rw [longOption?_longWord (noEquals_of_mem_ownNames hmem)] at hlong
        cases hlong

instance (word : String) : Decidable (IsOwnWord word) :=
  decidable_of_iff (Word.classify word ≠ .flag) (by rw [Ne, classify_eq_flag_iff, not_not])

theorem classify_longWord {name : String} (hmem : name ∈ ownNames) (attached : Option String) :
    longWord name attached ≠ "--" ∧ isShortHelp (longWord name attached) = false ∧
      longOption? (longWord name attached) = some (name, attached) := by
  refine ⟨fun he => ?_, ?_, longOption?_longWord (noEquals_of_mem_ownNames hmem) attached⟩
  · have hnil : name.toList ++ valueChars attached = [] := by
      have hchars := congrArg String.toList he
      rw [toList_longWord] at hchars
      exact (List.cons.inj (List.cons.inj hchars).2).2
    have hne : ∀ name ∈ ownNames, name.toList ≠ [] := by decide
    exact hne name hmem (List.append_eq_nil_iff.mp hnil).1
  · unfold isShortHelp
    rw [toList_longWord]
    rfl

theorem classify_path (o : PathOption) (attached : Option String) :
    Word.classify (longWord o.name attached) = .path o attached := by
  obtain ⟨hend, hhelp, hlong⟩ := classify_longWord (name_mem_ownNames o) attached
  simp only [Word.classify, hend, hhelp, hlong, ofName?_name, ↓reduceIte, Bool.false_eq_true]

theorem classify_switch (s : Switch) : Word.classify (longWord s.name none) = .switch s := by
  obtain ⟨hend, hhelp, hlong⟩ := classify_longWord (Switch.name_mem_ownNames s) none
  simp only [Word.classify, hend, hhelp, hlong, ↓reduceIte, Bool.false_eq_true]
  cases s <;> rfl

/-! ## 3. Options as they are given -/

/-- An option on a command line; its value is attached to it or the next word. -/
inductive Choice where
  | attached (o : PathOption) (value : String)
  | separate (o : PathOption) (value : String)
  | switch (s : Switch)
deriving DecidableEq

namespace Choice

def words : Choice → List String
  | .attached o value => [longWord o.name (some value)]
  | .separate o value => [longWord o.name none, value]
  | .switch s => [longWord s.name none]

def option : Choice → PathOption ⊕ Switch
  | .attached o _ | .separate o _ => .inl o
  | .switch s => .inr s

def path? : Choice → Option (PathOption × String)
  | .attached o value | .separate o value => some (o, value)
  | .switch _ => none

def switch? : Choice → Option Switch
  | .attached _ _ | .separate _ _ => none
  | .switch s => some s

end Choice

/-- Options that can be given together: each at most once, none with an empty value or with one that
is barred as a word of its own, and JSON only for a dry run. -/
structure WellFormed (barred : String → Prop) (L : List Choice) : Prop where
  once : (L.map Choice.option).Nodup
  nonempty : ∀ o value, (o, value) ∈ L.filterMap Choice.path? → value ≠ ""
  separate : ∀ o value, .separate o value ∈ L → ¬barred value
  json : .switch .json ∈ L → .switch .dryRun ∈ L

/-- The settings that options ask for. -/
def settings (envRoot : Option String) (L : List Choice) (flags : List String) : Settings :=
  let path (o : PathOption) : Option Path := ((L.filterMap Choice.path?).lookup o).map Path.mk
  let defaults : Settings := {}
  { root := path .root <|> envRoot.map Path.mk
    qemu := (path .qemu).getD defaults.qemu
    qemuImg := (path .qemuImg).getD defaults.qemuImg
    kernel := (path .kernel).getD defaults.kernel
    compiler := path .compiler
    preprocessor := path .preprocessor
    dryRun := .switch .dryRun ∈ L
    json := .switch .json ∈ L
    flags }

/-! ## 4. Reading them -/

section

variable {κ β : Type} [DecidableEq κ] {l l' : List (κ × β)} {k : κ} {v : β}

theorem lookup_eq_some_iff_mem (h : (l.map Prod.fst).Nodup) : l.lookup k = some v ↔ (k, v) ∈ l := by
  rw [List.lookup_eq_some_iff]
  constructor
  · rintro ⟨before, after, rfl, -⟩
    simp
  · intro hmem
    obtain ⟨before, after, rfl⟩ := List.append_of_mem hmem
    refine ⟨before, after, rfl, fun p hp => ?_⟩
    rw [List.map_append, List.nodup_append] at h
    exact bne_iff_ne.mpr fun he => h.2.2 p.1 (List.mem_map_of_mem hp) k (by simp) he.symm

-- If no key is given twice then the order does not matter.
theorem lookup_perm (h : (l.map Prod.fst).Nodup) (hperm : l.Perm l') (k : κ) :
    l.lookup k = l'.lookup k := by
  have h' : (l'.map Prod.fst).Nodup := (hperm.map Prod.fst).nodup_iff.mp h
  refine Option.ext fun v => ?_
  rw [lookup_eq_some_iff_mem h, lookup_eq_some_iff_mem h', hperm.mem_iff]

end

section

variable {envRoot : Option String} {L M : List Choice} {c : Choice} {barred : String → Prop}

/-- What the reader has noted once it has read some options. -/
def given (L : List Choice) : Given where
  paths := (L.filterMap Choice.path?).reverse
  switches := (L.filterMap Choice.switch?).reverse

theorem option_of_mem_paths {o : PathOption} {value : String}
    (h : (o, value) ∈ L.filterMap Choice.path?) : .inl o ∈ L.map Choice.option := by
  obtain ⟨c, hc, hpath⟩ := List.mem_filterMap.mp h
  refine List.mem_map.mpr ⟨c, hc, ?_⟩
  cases c with
  | attached o' value' | separate o' value' =>
    obtain ⟨rfl, -⟩ := Prod.mk.inj (Option.some.inj hpath)
    rfl
  | switch s => cases hpath

theorem mem_switches_iff {s : Switch} : s ∈ L.filterMap Choice.switch? ↔ .switch s ∈ L := by
  rw [List.mem_filterMap]
  constructor
  · rintro ⟨c, hc, hswitch⟩
    cases c with
    | attached o value | separate o value => cases hswitch
    | switch s' =>
      obtain rfl := Option.some.inj hswitch
      exact hc
  · exact fun h => ⟨_, h, rfl⟩

theorem give_given {o : PathOption} {value : String} (hfresh : .inl o ∉ L.map Choice.option)
    (hvalue : value ≠ "") :
    give (given L).paths o value = some ((o, value) :: (given L).paths) := by
  refine if_neg ?_
  rintro (hempty | hsome)
  · exact hvalue hempty
  · obtain ⟨⟨o', value'⟩, hmem, heq⟩ := List.lookup_isSome_iff.mp hsome
    obtain rfl : o = o' := eq_of_beq heq
    exact hfresh (option_of_mem_paths (List.mem_reverse.mp hmem))

theorem giveSwitch_given {s : Switch} (hfresh : .inr s ∉ L.map Choice.option) :
    giveSwitch (given L).switches s = some (s :: (given L).switches) :=
  if_neg fun hmem => hfresh <| List.mem_map.mpr
    ⟨.switch s, mem_switches_iff.mp (List.mem_reverse.mp hmem), rfl⟩

theorem given_concat_path {o : PathOption} {value : String} (h : c.path? = some (o, value))
    (hswitch : c.switch? = none) :
    given (L ++ [c]) = { given L with paths := (o, value) :: (given L).paths } := by
  simp [given, List.filterMap_append, h, hswitch]

/-- One more option is read. -/
theorem readFrom_choice (hL : WellFormed IsOwnWord L) (hc : c ∈ L)
    (hfresh : c.option ∉ M.map Choice.option) (rest : List String) :
    readFrom envRoot (given M) (c.words ++ rest) = readFrom envRoot (given (M ++ [c])) rest := by
  cases c with
  | attached o value =>
    have hvalue := hL.nonempty o value (List.mem_filterMap.mpr ⟨_, hc, rfl⟩)
    rw [given_concat_path rfl rfl]
    simp only [Choice.words, List.cons_append, List.nil_append, readFrom, classify_path,
      give_given hfresh hvalue]
  | separate o value =>
    have hvalue := hL.nonempty o value (List.mem_filterMap.mpr ⟨_, hc, rfl⟩)
    have hflag := classify_eq_flag_iff.mpr (hL.separate o value hc)
    rw [given_concat_path rfl rfl]
    simp only [Choice.words, List.cons_append, List.nil_append, readFrom, classify_path, hflag,
      give_given hfresh hvalue]
  | switch s =>
    have hgiven : given (M ++ [.switch s]) =
        { given M with switches := s :: (given M).switches } := by
      simp [given, List.filterMap_append, Choice.path?, Choice.switch?]
    rw [hgiven]
    simp only [Choice.words, List.cons_append, List.nil_append, readFrom, classify_switch,
      giveSwitch_given hfresh]

/-- A word of its own is not taken as the value of the option before it. -/
theorem readFrom_own_value {g : Given} {o : PathOption} {value : String} (h : IsOwnWord value)
    (rest : List String) :
    readFrom envRoot g ((Choice.separate o value).words ++ rest) = .misuse := by
  have hflag : Word.classify value ≠ .flag := fun hflag => classify_eq_flag_iff.mp hflag h
  simp only [Choice.words, List.cons_append, List.nil_append, readFrom, classify_path]
  split
  next hvalue _ => exact absurd hvalue hflag
  next => rfl

/-- All options are read, and what is left is what comes behind them. -/
theorem readFrom_words (hL : WellFormed IsOwnWord L) {todo : List Choice} (h : M ++ todo = L)
    (rest : List String) :
    readFrom envRoot (given M) (todo.flatMap Choice.words ++ rest) =
      readFrom envRoot (given L) rest := by
  induction todo generalizing M with
  | nil =>
    rw [List.append_nil] at h
    rw [h]
    rfl
  | cons c todo ih =>
    have hfresh : c.option ∉ M.map Choice.option := by
      have honce := hL.once
      rw [← h, List.map_append, List.nodup_append] at honce
      exact fun hmem => honce.2.2 _ hmem _ (by simp) rfl
    rw [List.flatMap_cons, List.append_assoc, readFrom_choice hL (by simp [← h]) hfresh,
      ih (by simpa using h)]

theorem nodup_paths (hL : WellFormed barred L) :
    ((L.filterMap Choice.path?).map Prod.fst).Nodup := by
  have hkeys : (L.filterMap Choice.path?).map Prod.fst =
      (L.map Choice.option).filterMap Sum.getLeft? := by
    rw [List.map_filterMap, List.filterMap_map]
    refine List.filterMap_congr fun c _ => ?_
    cases c <;> rfl
  rw [hkeys]
  refine List.Nodup.filterMap (fun a a' o ha ha' => ?_) hL.once
  exact (Sum.getLeft?_eq_some_iff.mp ha).trans (Sum.getLeft?_eq_some_iff.mp ha').symm

theorem settle_given (hL : WellFormed barred L) (hroot : envRoot ≠ some "") (flags : List String) :
    (given L).settle envRoot flags = .run (settings envRoot L flags) := by
  have hpath (o : PathOption) :
      path? (given L).paths o = ((L.filterMap Choice.path?).lookup o).map Path.mk := by
    rw [path?, lookup_perm (nodup_paths hL) (List.reverse_perm _).symm]
    rfl
  have hswitch (s : Switch) : s ∈ (given L).switches ↔ .switch s ∈ L :=
    List.mem_reverse.trans mem_switches_iff
  have hroot' (p : Option Path) : root? p envRoot = some (p <|> envRoot.map Path.mk) := by
    cases p with
    | some p => rfl
    | none =>
      unfold root?
      split
      next => contradiction
      next => exact absurd rfl hroot
      next => rfl
  have hjson : ¬(.json ∈ (given L).switches ∧ .dryRun ∉ (given L).switches) := by
    rw [hswitch, hswitch]
    exact fun h => h.2 (hL.json h.1)
  unfold Given.settle
  rw [hroot', hpath]
  dsimp only
  rw [if_neg hjson]
  simp only [hpath, hswitch]
  rfl

theorem settings_perm (hL : WellFormed barred L) (hperm : L.Perm M) (flags : List String) :
    settings envRoot L flags = settings envRoot M flags := by
  have hpath := lookup_perm (nodup_paths hL) (hperm.filterMap Choice.path?)
  simp only [settings, hpath, hperm.mem_iff]

theorem WellFormed.perm (hL : WellFormed barred L) (hperm : L.Perm M) : WellFormed barred M where
  once := (hperm.map Choice.option).nodup_iff.mp hL.once
  nonempty o value h := hL.nonempty o value ((hperm.filterMap Choice.path?).mem_iff.mpr h)
  separate o value h := hL.separate o value (hperm.mem_iff.mpr h)
  json h := hperm.mem_iff.mp (hL.json (hperm.mem_iff.mpr h))

/-- What is left of the words after the options are read goes to the board. -/
theorem read_words (hL : WellFormed IsOwnWord L) (hroot : envRoot ≠ some "") (flags : List String) :
    read envRoot (L.flatMap Choice.words ++ "--" :: flags) = .run (settings envRoot L flags) ∧
      ((∀ word ∈ flags.head?, ¬IsOwnWord word) →
        read envRoot (L.flatMap Choice.words ++ flags) = .run (settings envRoot L flags)) := by
  have hread (rest : List String) :
      read envRoot (L.flatMap Choice.words ++ rest) = readFrom envRoot (given L) rest :=
    readFrom_words (M := []) hL (List.nil_append L) rest
  constructor
  · rw [hread, ← settle_given hL hroot]
    rfl
  · intro hfirst
    rw [hread, ← settle_given hL hroot]
    cases flags with
    | nil => rfl
    | cons word flags =>
      have hflag := classify_eq_flag_iff.mpr (hfirst word rfl)
      simp only [readFrom, hflag]

/-! ## 5. What is left to the board -/

/-- What the launcher does with the options of the board, by its own settings. -/
def runWith (s : Settings) (o : Options) : Action Nat := do
  let sel ← checked (Selection.resolve o)
  let x ← inquire s o sel
  if s.dryRun then display s x else boot s x

-- The board flags come in with the options that they are read as, and not otherwise.
theorem run_settings (envRoot : Option String) (L : List Choice) (flags : List String) :
    run (settings envRoot L flags) =
      checked (Options.parse flags) >>= runWith (settings envRoot L []) := by
  rw [run_eq]
  unfold prepare
  rw [checked_configuration_bind]
  simp only [bind_assoc]
  rfl

/-- The launcher takes its own options in any order, and leaves all words behind them to the board as
they are: all that follow a `--`, or all from the first one that is no word of its own.  Nothing
else of what it does depends on them. -/
theorem own_options_leave_board_flags (hL : WellFormed IsOwnWord L) (hroot : envRoot ≠ some "") :
    (∀ M, L.Perm M → ∀ flags,
      read envRoot (M.flatMap Choice.words ++ "--" :: flags) = .run (settings envRoot L flags) ∧
      ((∀ word ∈ flags.head?, ¬IsOwnWord word) →
        read envRoot (M.flatMap Choice.words ++ flags) = .run (settings envRoot L flags))) ∧
    ∀ flags, run (settings envRoot L flags) =
      checked (Options.parse flags) >>= runWith (settings envRoot L []) := by
  refine ⟨fun M hperm flags => ?_, run_settings envRoot L⟩
  rw [settings_perm hL hperm]
  exact read_words (hL.perm hperm) hroot flags

/-- Values that look like flags and like options, one of them the very word that ends options. -/
def trickyOptions : List Choice :=
  [.separate .kernel "-smp", .attached .compiler "--", .switch .json, .attached .qemu "--kernel=x",
    .switch .dryRun]

def trickyFlags : List String :=
  ["-smp", "--json", "--", "--kernel", "rtthread.bin"]

theorem wellFormed_trickyOptions : WellFormed IsOwnWord trickyOptions where
  once := by decide
  nonempty o value h := by
    have hall : ∀ given ∈ trickyOptions.filterMap Choice.path?, given.2 ≠ "" := by decide
    exact hall _ h
  separate o value h := by
    obtain ⟨-, rfl⟩ : o = .kernel ∧ value = "-smp" := by simpa [trickyOptions] using h
    decide +kernel
  json := by decide

theorem tricky_options_leave_board_flags :
    read (some "rtt")
        (["--kernel", "-smp", "--dtc=--", "--json", "--qemu=--kernel=x", "--dry-run"] ++
          trickyFlags) = .run
      { root := some ⟨"rtt"⟩, qemu := ⟨"--kernel=x"⟩, kernel := ⟨"-smp"⟩, compiler := some ⟨"--"⟩
        dryRun := true, json := true, flags := trickyFlags } :=
  ((own_options_leave_board_flags wellFormed_trickyOptions (by decide)).1 _ (.refl _)
    trickyFlags).2 (by decide +kernel)

/-- A name without a value, or the end of the options.  There are more own words than these. -/
def IsBareName (word : String) : Prop :=
  word = "--" ∨ ∃ name ∈ ownNames, word = longWord name none

def kernelBehind (value : String) : List Choice :=
  [.switch .dryRun, .separate .kernel value]

theorem wellFormed_kernelBehind {value : String} (hempty : value ≠ "") (hbarred : ¬barred value) :
    WellFormed barred (kernelBehind value) where
  once := by simp [kernelBehind, Choice.option]
  nonempty o value' h := by
    obtain ⟨-, rfl⟩ : .kernel = o ∧ value = value' := by simpa [kernelBehind, Choice.path?] using h
    exact hempty
  separate o value' h := by
    obtain ⟨-, rfl⟩ : o = .kernel ∧ value' = value := by simpa [kernelBehind] using h
    exact hbarred
  json h := by simp [kernelBehind] at h

theorem read_kernelBehind {value : String} (h : IsOwnWord value) (flags : List String) :
    read none ((kernelBehind value).flatMap Choice.words ++ "--" :: flags) = .misuse := by
  have hfirst (rest : List String) : readFrom none {} ((Choice.switch .dryRun).words ++ rest) =
      readFrom none { switches := [.dryRun] } rest := by
    simp only [Choice.words, List.cons_append, List.nil_append, readFrom, classify_switch]
    rfl
  rw [kernelBehind, List.flatMap_cons, List.append_assoc, List.flatMap_cons, List.flatMap_nil,
    List.append_nil, read, hfirst]
  exact readFrom_own_value h _

/-- A call for help and an option with its value are not taken as values, though they are neither
`--` nor the name of an option. -/
theorem own_words_are_no_values :
    (WellFormed IsBareName (kernelBehind "-h") ∧
      read none ((kernelBehind "-h").flatMap Choice.words ++ "--" :: ["-smp", "3"]) = .misuse) ∧
    WellFormed IsBareName (kernelBehind "--qemu=x") ∧
      read none ((kernelBehind "--qemu=x").flatMap Choice.words ++ "--" :: ["-smp", "3"]) =
        .misuse := by
  have hhelp : IsOwnWord "-h" := Or.inr (Or.inl ⟨0, by decide⟩)
  have hqemu : IsOwnWord "--qemu=x" :=
    Or.inr (Or.inr ⟨"qemu", by decide, some "x", by decide⟩)
  have hbare : ¬IsBareName "-h" ∧ ¬IsBareName "--qemu=x" := by
    unfold IsBareName
    decide
  exact ⟨⟨wellFormed_kernelBehind (by decide) hbare.1, read_kernelBehind hhelp _⟩,
    wellFormed_kernelBehind (by decide) hbare.2, read_kernelBehind hqemu _⟩

end

end Launcher

end VirtBoard.CommandLine
