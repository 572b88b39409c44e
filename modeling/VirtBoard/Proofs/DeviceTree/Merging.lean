import Mathlib.Data.List.Forall2
import VirtBoard.Proofs.DeviceTree.MergedTexts
import VirtBoard.Proofs.DeviceTree.Recompilation

/-!
# Merging files

A merge reads all its sources as they are, and only then writes.  So a source that cannot be read
leaves everything as it was, the output may be one of the sources, and a merge in two goes writes
what a merge in one go does.
-/

namespace VirtBoard.DeviceTree

open VirtBoard.Action FileSystem
open Toolchain (smallMachine writing)

variable {m : Machine} {w : World}

/-! ## 1. Readable files -/

/-- A path leads to a regular file that holds a text. -/
def HoldsText (fs : Files) (cwd : Place) (p : Path) (text : String) : Prop :=
  ∃ k time x, fs.walk cwd p = .ok (.occupied k (.file text.toUTF8 time x))

def Readable (fs : Files) (cwd : Place) (p : Path) : Prop :=
  ∃ text, HoldsText fs cwd p text

section

variable {fs fs' : Files} {cwd : Place} {p q : Path} {text : String}

theorem fromUTF8?_eq_some_iff {content : ByteArray} :
    String.fromUTF8? content = some text ↔ content = text.toUTF8 := by
  constructor
  · intro h
    unfold String.fromUTF8? at h
    split at h
    · rw [← Option.some.inj h]
      rfl
    · cases h
  · rintro rfl
    exact dif_pos text.isValidUTF8

theorem readText_eq_ok_iff : fs.readText cwd p = .ok text ↔ HoldsText fs cwd p text := by
  rw [readText_eq, read_eq, stat_eq, HoldsText]
  rcases fs.walk cwd p with e | (⟨k, e⟩ | k)
  · simp
  · cases e with
    | directory time => simp
    | link target => simp
    | file content time x =>
      dsimp only
      constructor
      · intro h
        split at h
        next text' htext =>
          obtain rfl := Except.ok.inj h
          exact ⟨k, time, x, by rw [fromUTF8?_eq_some_iff.mp htext]⟩
        next => cases h
      · rintro ⟨k', time', x', h⟩
        cases h
        rw [fromUTF8?_eq_some_iff.mpr rfl]
  · simp

theorem HoldsText.unique {other : String} (h : HoldsText fs cwd p text)
    (h' : HoldsText fs cwd p other) : text = other :=
  Except.ok.inj ((readText_eq_ok_iff.mpr h).symm.trans (readText_eq_ok_iff.mpr h'))

/-- A file keeps its text while another one is written. -/
theorem HoldsText.write_other (h : HoldsText fs cwd q text) {content : ByteArray} {now : Time}
    (hwrite : fs.write cwd p content now = .ok fs') (hapart : ¬SameFile fs cwd q p) :
    HoldsText fs' cwd q text := by
  obtain ⟨k, time, x, hwalk⟩ := h
  obtain ⟨d, -, hd, -, -, honly⟩ := write_eq_ok hwrite
  have hfind : fs.find? k = some (.file text.toUTF8 time x) := holds_of_walk hwalk
  have hplace : k ≠ d.place := by
    cases d with
    | occupied place e =>
      rintro rfl
      obtain rfl := Option.some.inj (hfind.symm.trans (holds_of_walk hd))
      exact hapart ⟨_, _, hwalk, hd⟩
    | vacant place =>
      have hvacant : fs.find? place = none := holds_of_walk hd
      rintro rfl
      cases hfind.symm.trans hvacant
  have hkept : ∃ time', fs'.find? k = some (.file text.toUTF8 time' x) := by
    rcases honly k hplace with hsame | ⟨-, htouched⟩
    · exact ⟨time, hsame.trans hfind⟩
    · exact ⟨now, by rw [htouched, hfind]; rfl⟩
  obtain ⟨time', hfind'⟩ := hkept
  exact ⟨k, time', x, walk_of_sameTree (sameTree_write hwrite) hwalk hfind'⟩

/-- What was written to a file is its text. -/
theorem holdsText_of_write {now : Time} (hwrite : fs.write cwd p text.toUTF8 now = .ok fs') :
    HoldsText fs' cwd p text := by
  obtain ⟨x, hstat⟩ := stat_write hwrite
  obtain ⟨k, hwalk⟩ := walk_of_stat hstat
  exact ⟨k, now, x, hwalk⟩

/-- It is its text on every path that leads to the file. -/
theorem holdsText_of_write_same {now : Time} (hwrite : fs.write cwd p text.toUTF8 now = .ok fs')
    (hsame : SameFile fs cwd q p) : HoldsText fs' cwd q text := by
  obtain ⟨k, e, hq, hp⟩ := hsame
  obtain ⟨d, x, hd, -, hfind, -⟩ := write_eq_ok hwrite
  obtain rfl := Except.ok.inj (hp.symm.trans hd)
  exact ⟨k, now, x, walk_of_sameTree (sameTree_write hwrite) hq hfind⟩

/-- Files are as readable after a text was written as they were before. -/
theorem forall₂_holdsText_write {paths : List Path} {texts : List String} {now : Time}
    (h : List.Forall₂ (HoldsText fs cwd) paths texts)
    (hwrite : fs.write cwd p text.toUTF8 now = .ok fs') :
    ∃ texts', List.Forall₂ (HoldsText fs' cwd) paths texts' ∧
      ((∀ q ∈ paths, ¬SameFile fs cwd q p) → texts' = texts) := by
  induction h with
  | nil => exact ⟨[], .nil, fun _ => rfl⟩
  | @cons q old paths texts hold _ ih =>
    obtain ⟨texts', htexts, hkept⟩ := ih
    by_cases hsame : SameFile fs cwd q p
    · exact ⟨text :: texts', .cons (holdsText_of_write_same hwrite hsame) htexts,
        fun hapart => absurd hsame (hapart q List.mem_cons_self)⟩
    · refine ⟨old :: texts', .cons (hold.write_other hwrite hsame) htexts, fun hapart => ?_⟩
      rw [hkept (List.forall_mem_cons.mp hapart).2]

/-- A text can be written where a regular file is, or where there is room for one. -/
theorem write_of_branch {d : Destination} (hwalk : fs.walk cwd p = .ok d)
    (hbranch : fs.branch d.place = none) (content : ByteArray) (now : Time) :
    ∃ fs', fs.write cwd p content now = .ok fs' := by
  rw [write_eq, hwalk]
  cases d with
  | occupied place e =>
    obtain ⟨old, time, x, rfl⟩ := file_of_branch_eq_none hbranch (holds_of_walk hwalk)
    exact ⟨_, rfl⟩
  | vacant place => exact ⟨_, rfl⟩

end

/-! ## 2. Reading the sources -/

theorem forall₂_holdsText_iff {fs : Files} {cwd : Place} {sources : List Path}
    {texts : List String} :
    List.Forall₂ (HoldsText fs cwd) sources texts ↔
      List.Forall₂ (fun q text => fs.readText cwd q = .ok text) sources texts := by
  simp only [readText_eq_ok_iff]

/-- The sources are read in order, up to the first one that cannot be read. -/
theorem perform_readTexts (sources : List Path) (m : Machine) (w : World) :
    (∃ before q after, sources = before ++ q :: after ∧
      (∀ p ∈ before, Readable w.files m.cwd p) ∧ ¬Readable w.files m.cwd q ∧
      (sources.mapM readText).perform m w = (.error (.file .read q), w)) ∨
    ∃ texts, List.Forall₂ (HoldsText w.files m.cwd) sources texts ∧
      (sources.mapM readText).perform m w = (.ok texts, w) := by
  induction sources with
  | nil => exact Or.inr ⟨[], .nil, rfl⟩
  | cons q sources ih =>
    rw [List.mapM_cons, perform_bind, perform_readText]
    cases hq : w.files.readText m.cwd q with
    | error e =>
      refine Or.inl ⟨[], q, sources, rfl, by simp, ?_, rfl⟩
      rintro ⟨text, htext⟩
      cases hq.symm.trans (readText_eq_ok_iff.mpr htext)
    | ok text =>
      dsimp only
      have htext := readText_eq_ok_iff.mp hq
      rw [perform_bind]
      rcases ih with ⟨before, q', after, rfl, hbefore, hq', hrest⟩ | ⟨texts, htexts, hrest⟩
      · rw [hrest]
        exact Or.inl ⟨q :: before, q', after, rfl,
          List.forall_mem_cons.mpr ⟨⟨text, htext⟩, hbefore⟩, hq', rfl⟩
      · rw [hrest]
        exact Or.inr ⟨text :: texts, .cons htext htexts, rfl⟩

theorem readable_of_forall₂ {fs : Files} {cwd : Place} {sources : List Path} {texts : List String}
    (h : List.Forall₂ (HoldsText fs cwd) sources texts) : ∀ q ∈ sources, Readable fs cwd q := by
  induction h with
  | nil => exact fun q hq => absurd hq List.not_mem_nil
  | cons htext _ ih => exact List.forall_mem_cons.mpr ⟨⟨_, htext⟩, ih⟩

/-! ## 3. Merging -/

-- If all sources can be read then a merge is only a matter of writing.
theorem perform_merge {sources : List Path} {texts : List String}
    (hread : List.Forall₂ (HoldsText w.files m.cwd) sources texts) (output : Path) :
    (merge sources output).perform m w = (writeText output (mergeTexts texts)).perform m w := by
  have hunique : Relator.RightUnique (HoldsText w.files m.cwd) := fun _ _ _ h h' => h.unique h'
  unfold merge
  rw [perform_bind]
  rcases perform_readTexts sources m w with
    ⟨before, q, after, rfl, -, hq, -⟩ | ⟨texts', hread', hout⟩
  · exact absurd (readable_of_forall₂ hread q (by simp)) hq
  · rw [hout, List.right_unique_forall₂' hunique hread hread']

/-- A merge fails at the first source that cannot be read, or at an output that cannot be written,
or it writes. -/
theorem merge_cases (sources : List Path) (output : Path) (m : Machine) (w : World) :
    (∃ before q after, sources = before ++ q :: after ∧
      (∀ p ∈ before, Readable w.files m.cwd p) ∧ ¬Readable w.files m.cwd q ∧
      (merge sources output).perform m w = (.error (.file .read q), w)) ∨
    ∃ texts, List.Forall₂ (HoldsText w.files m.cwd) sources texts ∧
      (((∀ d, w.files.walk m.cwd output = .ok d → w.files.branch d.place ≠ none) ∧
          (merge sources output).perform m w = (.error (.file .write output), w)) ∨
        ∃ files, w.files.write m.cwd output (mergeTexts texts).toUTF8 w.now = .ok files ∧
          (merge sources output).perform m w =
            (.ok (), { w with files }.record (.wrote output (mergeTexts texts)))) := by
  rcases perform_readTexts sources m w with
    ⟨before, q, after, hsources, hbefore, hq, hout⟩ | ⟨texts, htexts, -⟩
  · refine Or.inl ⟨before, q, after, hsources, hbefore, hq, ?_⟩
    rw [merge, perform_bind, hout]
  · refine Or.inr ⟨texts, htexts, ?_⟩
    rw [perform_merge htexts, perform_writeText]
    cases hwrite : w.files.write m.cwd output (mergeTexts texts).toUTF8 w.now with
    | error e =>
      refine Or.inl ⟨fun d hwalk hbranch => ?_, rfl⟩
      obtain ⟨files, hfiles⟩ := write_of_branch hwalk hbranch (mergeTexts texts).toUTF8 w.now
      cases hwrite.symm.trans hfiles
    | ok files => exact Or.inr ⟨files, rfl, rfl⟩

/-- What was merged into a file is merged further like any source, with what the others hold by
then. -/
theorem perform_merge_merged {first rest : List Path} {texts others : List String}
    (hfirst : List.Forall₂ (HoldsText w.files m.cwd) first texts)
    (hrest : List.Forall₂ (HoldsText w.files m.cwd) rest others) {file : Path} {w₁ : World}
    (hmerge : (merge first file).perform m w = (.ok (), w₁)) :
    ∃ others', List.Forall₂ (HoldsText w₁.files m.cwd) rest others' ∧
      ((∀ q ∈ rest, ¬SameFile w.files m.cwd q file) → others' = others) ∧
      ∀ output, (merge (file :: rest) output).perform m w₁ =
        (writeText output (mergeTexts (mergeTexts texts :: others'))).perform m w₁ := by
  rw [perform_merge hfirst, perform_writeText] at hmerge
  split at hmerge
  next files hwrite =>
    obtain rfl := (Prod.mk.inj hmerge).2
    obtain ⟨others', hothers, hkept⟩ := forall₂_holdsText_write hrest hwrite
    exact ⟨others', hothers, hkept, perform_merge (.cons (holdsText_of_write hwrite) hothers)⟩
  next => cases hmerge

/-- Sources that can be read are kept whole, in order and on lines of their own, and merging in two
goes is merging in one, of the texts that the later sources hold by then.  Those are the same unless
one of them is the very file in between. -/
theorem merge_keeps_sources_whole {sources : List Path} {texts : List String}
    (hread : List.Forall₂ (HoldsText w.files m.cwd) sources texts) :
    ∃ pieces, Pieces texts pieces ∧ mergeTexts texts = String.join pieces ∧
      (∀ output, (merge sources output).perform m w =
        (writeText output (mergeTexts texts)).perform m w) ∧
      (texts ≠ [] → EndsLine (mergeTexts texts)) ∧
      lines (mergeTexts texts).toList =
        (if texts.head? = some "" then [[]] else []) ++
          (texts.flatMap fun text => lines text.toList) ∧
      (∀ first rest, texts = first ++ rest → first ≠ [] →
        mergeTexts (mergeTexts first :: rest) = mergeTexts texts) ∧
      ∀ first rest, sources = first ++ rest → first ≠ [] →
        ∀ (file : Path) (w₁ : World), (merge first file).perform m w = (.ok (), w₁) →
          ∃ others, List.Forall₂ (HoldsText w₁.files m.cwd) rest others ∧
            ((∀ q ∈ rest, ¬SameFile w.files m.cwd q file) →
              texts.take first.length ++ others = texts) ∧
            ∀ output, (merge (file :: rest) output).perform m w₁ =
              (writeText output (mergeTexts (texts.take first.length ++ others))).perform m w₁ := by
  refine ⟨piecesAfter "" texts, pieces_piecesAfter texts, mergeTexts_eq_join texts,
    perform_merge hread, mergeTexts_ends, lines_mergeTexts texts, ?_, ?_⟩
  · rintro first rest rfl hne
    exact mergeTexts_append hne rest
  · rintro first rest rfl hne file w₁ hmerge
    have hfirst := List.forall₂_take first.length hread
    have hrest := List.forall₂_drop first.length hread
    rw [List.take_left] at hfirst
    rw [List.drop_left] at hrest
    have htexts : texts.take first.length ≠ [] := by
      intro hnil
      rw [hnil] at hfirst
      exact hne (List.forall₂_nil_right_iff.mp hfirst)
    obtain ⟨others, hothers, hkept, hagain⟩ := perform_merge_merged hfirst hrest hmerge
    refine ⟨others, hothers, fun hapart => ?_, fun output => ?_⟩
    · rw [hkept hapart, List.take_append_drop]
    · rw [hagain, mergeTexts_append htexts]

-- A source without any text, one without its last line feed, and one with it.
def patches : World where
  files := ⟨[([], .directory default), (["none"], .file "".toUTF8 default false),
    (["header"], .file "/dts-v1/;".toUTF8 default false),
    (["plugin"], .file "/plugin/;\n".toUTF8 default false)]⟩
  now := default
  journal := []

theorem holdsText_patches :
    HoldsText patches.files [] ⟨"none"⟩ "" ∧ HoldsText patches.files [] ⟨"header"⟩ "/dts-v1/;" ∧
      HoldsText patches.files [] ⟨"plugin"⟩ "/plugin/;\n" :=
  ⟨⟨_, _, _, rfl⟩, ⟨_, _, _, rfl⟩, ⟨_, _, _, rfl⟩⟩

theorem merge_keeps_patches_whole :
    ∃ w₁, (merge [⟨"none"⟩, ⟨"header"⟩] ⟨"first"⟩).perform (smallMachine writing) patches =
        (.ok (), w₁) ∧
      ∀ output,
        (merge [⟨"none"⟩, ⟨"header"⟩, ⟨"none"⟩, ⟨"plugin"⟩] output).perform (smallMachine writing)
            patches =
          (writeText output "\n/dts-v1/;\n/plugin/;\n").perform (smallMachine writing) patches ∧
        (merge [⟨"first"⟩, ⟨"none"⟩, ⟨"plugin"⟩] output).perform (smallMachine writing) w₁ =
          (writeText output "\n/dts-v1/;\n/plugin/;\n").perform (smallMachine writing) w₁ := by
  obtain ⟨hnone, hheader, hplugin⟩ := holdsText_patches
  have hread : List.Forall₂ (HoldsText patches.files (smallMachine writing).cwd)
      [⟨"none"⟩, ⟨"header"⟩, ⟨"none"⟩, ⟨"plugin"⟩] ["", "/dts-v1/;", "", "/plugin/;\n"] :=
    .cons hnone (.cons hheader (.cons hnone (.cons hplugin .nil)))
  obtain ⟨-, -, -, hmerge, -, -, -, hagain⟩ := merge_keeps_sources_whole hread
  have hmerged : mergeTexts ["", "/dts-v1/;", "", "/plugin/;\n"] = "\n/dts-v1/;\n/plugin/;\n" := by
    decide
  have hok : ((merge [⟨"none"⟩, ⟨"header"⟩] ⟨"first"⟩).perform (smallMachine writing)
      patches).1.isOk = true := rfl
  rcases hfirst : (merge [⟨"none"⟩, ⟨"header"⟩] ⟨"first"⟩).perform (smallMachine writing)
    patches with ⟨e | ⟨⟩, w₁⟩
  · rw [hfirst] at hok
    cases hok
  · obtain ⟨others, -, hkept, hsecond⟩ := hagain [⟨"none"⟩, ⟨"header"⟩] [⟨"none"⟩, ⟨"plugin"⟩] rfl
      (List.cons_ne_nil _ _) ⟨"first"⟩ w₁ hfirst
    rw [hkept fun q _ => Toolchain.not_sameFile rfl, hmerged] at hsecond
    rw [hmerged] at hmerge
    exact ⟨w₁, rfl, fun output => ⟨hmerge output, hsecond output⟩⟩

/-- Merging changes nothing unless all sources can be read, and then nothing but the output; what
is merged is what the sources held before, be the output one of them or not. -/
theorem merge_changes_only_its_output (sources : List Path) (output : Path) (m : Machine)
    (w : World) :
    ((∃ q ∈ sources, ¬Readable w.files m.cwd q) →
      ∃ before q after, sources = before ++ q :: after ∧
        (∀ p ∈ before, Readable w.files m.cwd p) ∧ ¬Readable w.files m.cwd q ∧
        (merge sources output).perform m w = (.error (.file .read q), w)) ∧
    ((∀ q ∈ sources, Readable w.files m.cwd q) →
      ∃ texts : List String, List.Forall₂ (HoldsText w.files m.cwd) sources texts ∧
        (∀ k : Nat, sources[k]? = some output →
          ∃ text, texts[k]? = some text ∧ HoldsText w.files m.cwd output text) ∧
        ((∀ d, w.files.walk m.cwd output = .ok d → w.files.branch d.place ≠ none) →
          (merge sources output).perform m w = (.error (.file .write output), w)) ∧
        ∀ d, w.files.walk m.cwd output = .ok d → w.files.branch d.place = none →
          ∃ files x, (merge sources output).perform m w =
              (.ok (), { w with files }.record (.wrote output (mergeTexts texts))) ∧
            files.find? d.place = some (.file (mergeTexts texts).toUTF8 w.now x) ∧
            OnlyAt d.place w.now w.files files) := by
  rcases merge_cases sources output m w with
    ⟨before, q, after, rfl, hbefore, hq, hout⟩ | ⟨texts, htexts, hends⟩
  · exact ⟨fun _ => ⟨before, q, after, rfl, hbefore, hq, hout⟩,
      fun hall => absurd (hall q (by simp)) hq⟩
  · refine ⟨fun ⟨q, hmem, hq⟩ => absurd (readable_of_forall₂ htexts q hmem) hq,
      fun _ => ⟨texts, htexts, fun k hk => ?_, fun hnone => ?_, fun d hwalk hbranch => ?_⟩⟩
    · obtain ⟨hlt, hget⟩ := List.getElem?_eq_some_iff.mp hk
      have hlt' : k < texts.length := htexts.length_eq ▸ hlt
      refine ⟨texts[k], List.getElem?_eq_getElem hlt', ?_⟩
      rw [← hget]
      exact htexts.get hlt hlt'
    · rcases hends with ⟨-, hout⟩ | ⟨files, hwrite, -⟩
      · exact hout
      · obtain ⟨d, -, hwalk, hbranch, -⟩ := write_eq_ok hwrite
        exact absurd hbranch (hnone d hwalk)
    · rcases hends with ⟨hnone, -⟩ | ⟨files, hwrite, hout⟩
      · exact absurd hbranch (hnone d hwalk)
      · obtain ⟨d', x, hwalk', -, hfind, honly⟩ := write_eq_ok hwrite
        obtain rfl := Except.ok.inj (hwalk.symm.trans hwalk')
        exact ⟨files, x, hout, hfind, honly⟩

theorem merge_of_patches_into_one_of_them :
    (merge [⟨"header"⟩, ⟨"missing"⟩, ⟨"plugin"⟩] ⟨"header"⟩).perform (smallMachine writing)
        patches = (.error (.file .read ⟨"missing"⟩), patches) ∧
      ∃ files x,
        (merge [⟨"header"⟩, ⟨"plugin"⟩] ⟨"header"⟩).perform (smallMachine writing) patches =
          (.ok (), { patches with files }.record (.wrote ⟨"header"⟩ "/dts-v1/;\n/plugin/;\n")) ∧
        files.find? ["header"] = some (.file "/dts-v1/;\n/plugin/;\n".toUTF8 default x) ∧
        OnlyAt ["header"] default patches.files files := by
  obtain ⟨-, hheader, hplugin⟩ := holdsText_patches
  constructor
  · have hmissing : ¬Readable patches.files [] ⟨"missing"⟩ := by
      rintro ⟨text, k, time, x, hwalk⟩
      cases hwalk
    obtain ⟨before, q, after, hsources, -, hq, hout⟩ := (merge_changes_only_its_output
      [⟨"header"⟩, ⟨"missing"⟩, ⟨"plugin"⟩] ⟨"header"⟩ (smallMachine writing) patches).1
        ⟨⟨"missing"⟩, by simp, hmissing⟩
    have hmem : q ∈ [⟨"header"⟩, ⟨"missing"⟩, ⟨"plugin"⟩] := by
      rw [hsources]
      simp
    simp only [List.mem_cons, List.not_mem_nil, or_false] at hmem
    rcases hmem with rfl | rfl | rfl
    · exact absurd ⟨_, hheader⟩ hq
    · exact hout
    · exact absurd ⟨_, hplugin⟩ hq
  · have hread : List.Forall₂ (HoldsText patches.files []) [⟨"header"⟩, ⟨"plugin"⟩]
        ["/dts-v1/;", "/plugin/;\n"] :=
      .cons hheader (.cons hplugin .nil)
    obtain ⟨texts, htexts, -, -, hwrites⟩ := (merge_changes_only_its_output
      [⟨"header"⟩, ⟨"plugin"⟩] ⟨"header"⟩ (smallMachine writing) patches).2
        (readable_of_forall₂ hread)
    have hsame : texts = ["/dts-v1/;", "/plugin/;\n"] :=
      List.right_unique_forall₂' (fun _ _ _ h h' => h.unique h') htexts hread
    have hmerged : mergeTexts texts = "/dts-v1/;\n/plugin/;\n" := by
      rw [hsame]
      decide
    rw [hmerged] at hwrites
    exact hwrites (.occupied ["header"] (.file "/dts-v1/;".toUTF8 default false)) rfl rfl

end VirtBoard.DeviceTree
