import VirtBoard.Proofs.Board.FlagGrammar
import VirtBoard.Proofs.CommandLine.Effects
import VirtBoard.Proofs.Json.Reading
import VirtBoard.Proofs.Shell.Words

/-!
# Dry runs

A dry run prints the command line that the same words without the switch launch: the line reads, as
a shell would read it, as the program and its arguments, and so does the JSON text.  This is so for
every run without overlays that gets as far as launching the emulator.
-/

namespace VirtBoard.CommandLine.Launcher

open VirtBoard.Action Board FileSystem Launch Qemu

/-! ## 1. Switches in front of a command line -/

theorem settle_eq_run {envRoot : Option String} {g : Given} {flags : List String} {s : Settings}
    (h : g.settle envRoot flags = .run s) :
    s.dryRun = decide (.dryRun ∈ g.switches) ∧ s.json = decide (.json ∈ g.switches) ∧
      (.json ∈ g.switches → .dryRun ∈ g.switches) ∧
      ∀ switches, (.json ∈ switches → .dryRun ∈ switches) →
        ({ g with switches } : Given).settle envRoot flags =
          .run { s with
            dryRun := decide (.dryRun ∈ switches), json := decide (.json ∈ switches) } := by
  unfold Given.settle at h ⊢
  split at h
  next => cases h
  next root hroot =>
    split at h
    next => cases h
    next hjson =>
      obtain rfl := Request.run.inj h
      have hkept : .json ∈ g.switches → .dryRun ∈ g.switches :=
        fun hj => Decidable.byContradiction fun hd => hjson ⟨hj, hd⟩
      refine ⟨rfl, rfl, hkept, fun switches hswitches => ?_⟩
      dsimp only
      rw [hroot]
      dsimp only
      rw [if_neg fun hboth => hboth.2 (hswitches hboth.1)]

/-- Where the reading of a command line ends: with all options read and the board flags left.  If
no switch was read on the way, then any switches may be given beforehand. -/
theorem readFrom_ends {envRoot : Option String} {g : Given} {args : List String} {s : Settings}
    (h : readFrom envRoot g args = .run s) :
    ∃ (g' : Given) (flags : List String) (added : List Switch),
      g'.settle envRoot flags = .run s ∧ g'.switches = added ++ g.switches ∧
      (added = [] → ∀ switches, readFrom envRoot { g with switches } args =
        ({ g' with switches } : Given).settle envRoot flags) := by
  fun_induction readFrom envRoot g args generalizing s with
  | case1 g => exact ⟨g, [], [], h, rfl, fun _ _ => rfl⟩
  | case2 g word rest hword =>
    exact ⟨g, rest, [], h, rfl, fun _ _ => by simp only [readFrom, hword]⟩
  | case5 g word rest hword =>
    exact ⟨g, word :: rest, [], h, rfl, fun _ _ => by simp only [readFrom, hword]⟩
  | case6 g word rest switch hword switches hgiven ih =>
    obtain ⟨g', flags, added, hsettle, hadded, -⟩ := ih h
    unfold giveSwitch at hgiven
    split at hgiven
    next => cases hgiven
    next =>
      obtain rfl := Option.some.inj hgiven
      exact ⟨g', flags, added ++ [switch], hsettle, by simp [hadded], fun hnone => by simp at hnone⟩
  | case8 g word rest o value hword paths hgiven ih =>
    obtain ⟨g', flags, added, hsettle, hadded, hswitches⟩ := ih h
    exact ⟨g', flags, added, hsettle, hadded,
      fun hnone switches => by simpa only [readFrom, hword, hgiven] using hswitches hnone switches⟩
  | case11 g word o hword value rest paths hgiven hvalue ih =>
    obtain ⟨g', flags, added, hsettle, hadded, hswitches⟩ := ih h
    exact ⟨g', flags, added, hsettle, hadded, fun hnone switches => by
      simpa only [readFrom, hword, hgiven, hvalue] using hswitches hnone switches⟩
  -- In all other cases the words are misuse, or ask for help.
  | _ => cases h

/-- Words that make no dry run go on to mean the same behind switches. -/
theorem readFrom_switched {envRoot : Option String} {args : List String} {s : Settings}
    (h : read envRoot args = .run s) (hdry : s.dryRun = false) {switches : List Switch}
    (hswitches : .json ∈ switches → .dryRun ∈ switches) :
    readFrom envRoot { switches } args =
      .run { s with dryRun := decide (.dryRun ∈ switches), json := decide (.json ∈ switches) } := by
  obtain ⟨g', flags, added, hsettle, hadded, hread⟩ := readFrom_ends h
  obtain ⟨hdryRun, -, hjson, hsettled⟩ := settle_eq_run hsettle
  have hnone : g'.switches = [] := by
    refine List.eq_nil_iff_forall_not_mem.mpr fun switch hmem => ?_
    have hdryMem : .dryRun ∈ g'.switches := by
      cases switch with
      | dryRun => exact hmem
      | json => exact hjson hmem
    rw [hdry] at hdryRun
    exact of_decide_eq_false hdryRun.symm hdryMem
  have hadded : added = [] := (List.append_eq_nil_iff.mp (hadded.symm.trans hnone)).1
  rw [← hsettled switches hswitches]
  exact hread hadded switches

theorem read_dryRun {envRoot : Option String} {args : List String} {s : Settings}
    (h : read envRoot args = .run s) (hdry : s.dryRun = false) :
    read envRoot ("--dry-run" :: args) = .run { s with dryRun := true, json := false } ∧
      read envRoot ("--dry-run" :: "--json" :: args) =
        .run { s with dryRun := true, json := true } := by
  have hdryWord : Word.classify "--dry-run" = .switch .dryRun := by decide +kernel
  have hjsonWord : Word.classify "--json" = .switch .json := by decide +kernel
  have hone := @readFrom_switched _ _ _ h hdry [.dryRun] (by decide)
  have htwo := @readFrom_switched _ _ _ h hdry [.json, .dryRun] (by decide)
  constructor
  · simp only [read, readFrom, hdryWord]
    exact hone
  · simp only [read, readFrom, hdryWord, hjsonWord]
    exact htwo

/-! ## 2. Board flags without overlays -/

theorem overlays_parse {flags : List String} {o : Options} (h : Options.parse flags = .ok o)
    (hnone : ∀ value, .setting .overlay value ∉ (Item.cut flags).1) : o.overlays = [] := by
  rw [Options.parse_eq] at h
  split at h
  next => cases h
  next => cases h
  next =>
    have hvalues := Item.values_eq_nil_iff.mpr hnone
    rw [← Except.ok.inj h]
    exact congrArg (List.map Path.mk) hvalues

theorem no_overlay_of_not_mem {flags : List String} (h : "-dtbo" ∉ flags) (value : String) :
    .setting .overlay value ∉ (Item.cut flags).1 := by
  fun_induction Item.cut flags with
  | case1 => exact List.not_mem_nil
  | case2 token rest htoken ih => exact ih fun hmem => h (List.mem_cons_of_mem _ hmem)
  | case3 token rest switch htoken items dangling hcut ih =>
    rw [hcut] at ih
    simpa using ih fun hmem => h (List.mem_cons_of_mem _ hmem)
  | case4 => exact List.not_mem_nil
  | case5 token f htoken taken rest items dangling hcut ih =>
    rw [hcut] at ih
    have hrest := ih fun hmem => h (List.mem_cons_of_mem _ (List.mem_cons_of_mem _ hmem))
    have hflag : f ≠ .overlay := by
      rintro rfl
      obtain rfl := Flag.ofToken?_eq_some_iff.mp htoken
      exact h List.mem_cons_self
    simpa [hflag.symm] using hrest

/-! ## 3. Launches among the runs -/

variable {m : Machine} {w : World}

/-- The emulator is run with a command line that was assembled for some configuration. -/
def IsLaunch (r : Run) : Prop :=
  ∃ o sel env i, Invocation.assemble o sel env = .ok i ∧ r.start.command = ⟨i.program, i.args⟩

-- Every assembled command line begins with the machine.
theorem not_isLaunch {r : Run} {word : String} {rest : List String}
    (h : r.start.command.args = word :: rest) (hword : word ≠ "-M") : ¬IsLaunch r := by
  rintro ⟨o, sel, env, i, hi, hcommand⟩
  rw [hcommand, Assembly.assemble_ok hi] at h
  exact hword (List.cons.inj h).1.symm

theorem not_isLaunch_of_asks {s : Settings} {qemu : Path} {r : Run} (h : Asks s m w qemu r) :
    ¬IsLaunch r :=
  not_isLaunch (congrArg Command.args (started_of_run? h.started).command) (by decide)

theorem not_isLaunch_of_supplies {dir tool : Path} {ds : List DiskImage} {r : Run}
    (h : Supplies m dir tool ds r) : ¬IsLaunch r := by
  obtain ⟨d, -, hcommand, -⟩ := h
  exact not_isLaunch (congrArg Command.args hcommand) (by decide)

theorem not_isLaunch_of_decompiles {p : Pipeline} {r : Run} {after : List Run}
    (h : p.Decompiles r after) : ∀ r' ∈ after, ¬IsLaunch r' := by
  rcases h with rfl | ⟨dump, dtc, r', -, -, rfl, hcommand⟩
  · exact fun _ hr' => absurd hr' List.not_mem_nil
  · intro r'' hr''
    obtain rfl := List.mem_singleton.mp hr''
    exact not_isLaunch (congrArg Command.args hcommand) (by decide)

/-- A run is the only launch among some runs. -/
structure OnlyLaunch (r : Run) (rs : List Run) : Prop where
  isLaunch : IsLaunch r
  others : ∃ before after, rs = before ++ r :: after ∧ ∀ r' ∈ before ++ after, ¬IsLaunch r'

theorem OnlyLaunch.mem {r : Run} {rs : List Run} (h : OnlyLaunch r rs) : r ∈ rs := by
  obtain ⟨-, before, after, rfl, -⟩ := h
  exact List.mem_append_right _ List.mem_cons_self

theorem OnlyLaunch.eq {r r' : Run} {rs : List Run} (h : OnlyLaunch r rs) (hr' : r' ∈ rs)
    (hlaunch : IsLaunch r') : r' = r := by
  obtain ⟨-, before, after, rfl, hothers⟩ := h
  by_contra hne
  refine hothers r' ?_ hlaunch
  simpa [hne] using hr'

/-- Nothing is launched between two worlds. -/
def Idle (w w' : World) : Prop :=
  ∃ rs, w'.runs = w.runs ++ rs ∧ ∀ r ∈ rs, ¬IsLaunch r

/-- A run is all that is launched between two worlds. -/
def Once (r : Run) (w w' : World) : Prop :=
  ∃ rs, w'.runs = w.runs ++ rs ∧ OnlyLaunch r rs

section

variable {w₁ w₂ : World} {r : Run}

theorem idle_of_runs_eq (h : w₁.runs = w.runs) : Idle w w₁ :=
  ⟨[], by rw [h, List.append_nil], fun _ hr => absurd hr List.not_mem_nil⟩

theorem idle_of_asks {s : Settings} {qemu : Path} (h : Asks s m w qemu r)
    (hruns : w₁.runs = w.runs ++ [r]) : Idle w w₁ :=
  ⟨[r], hruns, by simpa using not_isLaunch_of_asks h⟩

theorem idle_of_provision {dir tool : Path} {ds : List DiskImage} {rs : List Run}
    (h : Provision m dir tool w ds rs w₁) : Idle w w₁ :=
  ⟨rs, h.runs, fun r hr => not_isLaunch_of_supplies (h.supplies r hr).1⟩

theorem Idle.trans (h : Idle w w₁) (h' : Idle w₁ w₂) : Idle w w₂ := by
  obtain ⟨rs, hruns, hrs⟩ := h
  obtain ⟨rs', hruns', hrs'⟩ := h'
  refine ⟨rs ++ rs', by rw [hruns', hruns, List.append_assoc], fun r hr => ?_⟩
  exact (List.mem_append.mp hr).elim (hrs r) (hrs' r)

theorem Idle.once (h : Idle w w₁) (h' : Once r w₁ w₂) : Once r w w₂ := by
  obtain ⟨rs, hruns, hrs⟩ := h
  obtain ⟨rs', hruns', hlaunch, before, after, rfl, hothers⟩ := h'
  refine ⟨rs ++ (before ++ r :: after), by rw [hruns', hruns, List.append_assoc], hlaunch,
    rs ++ before, after, (List.append_assoc _ _ _).symm, fun r' hr' => ?_⟩
  rw [List.append_assoc] at hr'
  exact (List.mem_append.mp hr').elim (hrs r') (hothers r')

end

/-! ## 4. What is launched -/

/-- Without overlays a plan is launched once, with its own command line, or what it takes fails
before that. -/
theorem boot_launches {s : Settings} {x : Plan} (hoverlays : x.options.overlays = [])
    (hi : Invocation.assemble x.options x.selection x.environment = .ok x.invocation)
    (m : Machine) (w : World) :
    (Idle w ((boot s x).perform m w).2 ∧ resultCode ((boot s x).perform m w).1 = 1) ∨
    ∃ r, Once r w ((boot s x).perform m w).2 ∧
      r.start.command = ⟨x.invocation.program, x.invocation.args⟩ := by
  rcases boot_cases s x m w with
    ⟨e, -, h⟩ | ⟨tool, -, ⟨e, rs, w', hruns, hrs, h⟩ | ⟨rs, w₂, hall, h⟩⟩
  · rw [h]
    exact Or.inl ⟨idle_of_runs_eq rfl, rfl⟩
  · rw [h]
    exact Or.inl ⟨⟨rs, hruns, fun r hr => not_isLaunch_of_supplies (hrs r hr)⟩, rfl⟩
  rw [h, Pipeline.run_eq_direct hoverlays]
  rcases Pipeline.direct_cases (pipeline s m x) m w₂ with
    ⟨e, w', hruns, he⟩ | ⟨c, r, after, result, w', hc, hr, hruns, hafter, -, hdirect⟩
  · rw [he]
    exact Or.inl ⟨(idle_of_provision hall).trans (idle_of_runs_eq hruns), rfl⟩
  rw [hdirect]
  have hemulator : (pipeline s m x).emulator x.options =
      some ⟨x.invocation.program, x.invocation.args⟩ := by
    unfold Pipeline.emulator pipeline
    rw [hi]
  have hcommand : r.start.command = ⟨x.invocation.program, x.invocation.args⟩ :=
    (started_of_shownRun? hr).command.trans (Option.some.inj (hc.symm.trans hemulator))
  have honly : OnlyLaunch r (r :: after) :=
    ⟨⟨_, _, _, _, hi, hcommand⟩, [], after, rfl, not_isLaunch_of_decompiles hafter⟩
  exact Or.inr ⟨r, (idle_of_provision hall).once ⟨r :: after, hruns, honly⟩, hcommand⟩

/-- A run of the launcher without overlays either launches nothing or launches the plan that it has
prepared, once.  If it launches nothing then it is a dry run or it fails. -/
theorem run_launches {s : Settings} (m : Machine) (w : World)
    (hoverlays : ∀ o, Options.parse s.flags = .ok o → o.overlays = []) :
    (Idle w ((run s).perform m w).2 ∧
      (s.dryRun = true ∨ resultCode ((run s).perform m w).1 = 1)) ∨
    ∃ x w₁ r, (prepare s).perform m w = (.ok x, w₁) ∧ w₁.printed = w.printed ∧
      s.dryRun = false ∧ Once r w ((run s).perform m w).2 ∧
      r.start.command = ⟨x.invocation.program, x.invocation.args⟩ := by
  rw [run_eq, perform_bind]
  cases hc : configuration s.flags with
  | error e =>
    have hprepare : (prepare s).perform m w = (.error (.usage e), w) := by
      rw [prepare, hc]
      rfl
    rw [hprepare]
    exact Or.inl ⟨idle_of_runs_eq rfl, Or.inr rfl⟩
  | ok c =>
    obtain ⟨hparse, hresolve⟩ := configuration_eq_ok_iff.mp hc
    rw [prepare_eq hparse hresolve]
    rcases inquire_cases s c.1 c.2 m w with
      ⟨e, he⟩ | ⟨qemu, r, hasks, ⟨e, -, he⟩ | ⟨x, w₁, hx, -, hruns, hprinted, hx₁⟩⟩
    · rw [he]
      exact Or.inl ⟨idle_of_runs_eq rfl, Or.inr rfl⟩
    · rw [he]
      exact Or.inl ⟨idle_of_asks hasks (World.runs_after w r), Or.inr rfl⟩
    rw [hx₁]
    dsimp only
    have hasked : Idle w w₁ := idle_of_asks hasks hruns
    cases hdry : s.dryRun with
    | true =>
      exact Or.inl ⟨hasked.trans (idle_of_runs_eq (World.runs_printed w₁ _)), Or.inl rfl⟩
    | false =>
      have hnone : x.options.overlays = [] := by
        rw [hx.options]
        exact hoverlays c.1 hparse
      have hi := hx.invocation
      rw [← hx.options, ← hx.selection] at hi
      rcases boot_launches hnone hi m w₁ with ⟨hidle, hcode⟩ | ⟨r', honce, hcommand⟩
      · exact Or.inl ⟨hasked.trans hidle, Or.inr hcode⟩
      · exact Or.inr ⟨x, w₁, r', rfl, hprinted, rfl, hasked.once honce, hcommand⟩

/-! ## 5. The same preparation on another machine -/

/-- The other machine differs at most in its programs, and its emulator answers the question for the
release in the same way. -/
structure AnswersAlike (s : Settings) (m m' : Machine) (w : World) : Prop where
  cwd : m'.cwd = m.cwd
  searchPath : m'.searchPath = m.searchPath
  answers : ∀ qemu, m.which w.files s.qemu = some qemu → ∀ start,
    start.command = versionQuery qemu → m'.programs w.runs start = m.programs w.runs start

section

variable {s : Settings} {m' : Machine} (h : AnswersAlike s m m' w)

include h

theorem which_alike (files : Files) (p : Path) : m'.which files p = m.which files p := by
  unfold Machine.which
  rw [h.cwd, h.searchPath]

theorem query_alike {qemu : Path} (hqemu : m.which w.files s.qemu = some qemu) :
    m'.run? w.runs w.files w.now .captured (versionQuery qemu) =
      m.run? w.runs w.files w.now .captured (versionQuery qemu) := by
  have hlocate : m'.locate w.files (versionQuery qemu).program =
      m.locate w.files (versionQuery qemu).program := by
    unfold Machine.locate
    rw [h.cwd, h.searchPath]
  have hanswers (place : Place) :
      m'.programs w.runs ⟨versionQuery qemu, place, w.files, w.now⟩ =
        m.programs w.runs ⟨versionQuery qemu, place, w.files, w.now⟩ :=
    h.answers qemu hqemu _ rfl
  rw [run?_eq, run?_eq, hlocate]
  simp only [hanswers]

theorem perform_prepare_alike : (prepare s).perform m' w = (prepare s).perform m w := by
  have henvironment (qemu : Path) (r : Run) (v : Version) :
      environment s m' qemu r v = environment s m qemu r v := by
    unfold environment
    rw [h.cwd]
  unfold prepare
  rw [perform_checked_bind, perform_checked_bind]
  cases configuration s.flags with
  | error e => rfl
  | ok c =>
    dsimp only
    rw [perform_inquire, perform_inquire, which_alike h]
    cases hqemu : m.which w.files s.qemu with
    | none => rfl
    | some qemu => simp only [query_alike h hqemu, henvironment]

/-- A dry run prints the plan that the same words without the switch prepare. -/
theorem outcome?_dryRun {envRoot : Option String} {args : List String} {json : Bool}
    (hread : read envRoot args = .run { s with dryRun := true, json }) {x : Plan} {w₁ : World}
    (hx : (prepare s).perform m w = (.ok x, w₁)) :
    outcome? envRoot args m' w = some (0, w₁.record (.printed
      ((if json then x.invocation.toJson.pretty else x.invocation.line) ++ "\n"))) := by
  -- The preparation reads none of the two switches.
  have hprepare : prepare { s with dryRun := true, json } = prepare s := rfl
  have hrun : (run { s with dryRun := true, json }).perform m' w =
      (.ok 0, w₁.record (.printed
        ((if json then x.invocation.toJson.pretty else x.invocation.line) ++ "\n"))) := by
    rw [run_eq, hprepare, perform_bind, perform_prepare_alike h, hx]
    rfl
  rw [outcome?, hread]
  dsimp only
  rw [hrun]
  rfl

end

/-! ## 6. What a dry run shows -/

theorem read_toJson (i : Invocation) : ∃ j, Json.read (i.toJson.pretty ++ "\n") = some j ∧
    j.field? "program" = some (.str i.program.text) ∧
    j.field? "args" = some (.arr (i.args.map .str)) := by
  have htext : i.toJson.pretty ++ "\n" =
      String.ofList (Json.render .pretty 0 i.toJson ++ ['\n']) := by
    rw [Json.pretty, String.ofList_append]
  refine ⟨i.toJson, ?_, rfl, rfl⟩
  rw [htext]
  exact Json.read_render Json.Layout.pretty_lawful i.toJson rfl

/-- If words without overlays get as far as launching the emulator, then the launch is their only
one, and both dry runs of the same words end well and show its program and arguments: as a line for
a shell, and as JSON.  The dry runs may meet other programs, as long as these answer the question
for the release alike. -/
theorem dry_run_shows_the_launch {envRoot : Option String} {args : List String} {s : Settings}
    (hread : read envRoot args = .run s)
    (hoverlay : ∀ value, .setting .overlay value ∉ (Item.cut s.flags).1)
    {code : Nat} {w' : World} (hrun : outcome? envRoot args m w = some (code, w'))
    {started : List Run} (hstarted : w'.runs = w.runs ++ started)
    {r : Run} (hr : r ∈ started) (hlaunch : IsLaunch r) :
    OnlyLaunch r started ∧
    ∀ m', AnswersAlike s m m' w →
      (∃ line w₁, outcome? envRoot ("--dry-run" :: args) m' w = some (0, w₁) ∧
        w₁.printed = w.printed ++ [line ++ "\n"] ∧
        Shell.words? line = some (r.start.command.program.text :: r.start.command.args)) ∧
      ∃ text w₂ j, outcome? envRoot ("--dry-run" :: "--json" :: args) m' w = some (0, w₂) ∧
        w₂.printed = w.printed ++ [text] ∧ Json.read text = some j ∧
        j.field? "program" = some (.str r.start.command.program.text) ∧
        j.field? "args" = some (.arr (r.start.command.args.map .str)) := by
  have hw' : w' = ((run s).perform m w).2 := by
    rw [outcome?, hread] at hrun
    exact (Prod.mk.inj (Option.some.inj hrun)).2.symm
  rw [hw'] at hstarted
  rcases run_launches m w fun o ho => overlays_parse ho hoverlay with
    ⟨⟨rs, hrs, hnone⟩, -⟩ | ⟨x, w₁, r', hx, hprinted, hdry, ⟨rs, hrs, honly⟩, hcommand⟩
  · obtain rfl := List.append_cancel_left (hstarted.symm.trans hrs)
    exact absurd hlaunch (hnone r hr)
  obtain rfl := List.append_cancel_left (hstarted.symm.trans hrs)
  obtain rfl := honly.eq hr hlaunch
  refine ⟨honly, fun m' halike => ?_⟩
  obtain ⟨hplain, hjson⟩ := read_dryRun hread hdry
  rw [hcommand]
  constructor
  · refine ⟨x.invocation.line, _, outcome?_dryRun halike hplain hx, ?_, Shell.words?_line _ _⟩
    rw [World.printed_printed, hprinted]
    rfl
  · obtain ⟨j, hj, hprogram, hargs⟩ := read_toJson x.invocation
    refine ⟨_, _, j, outcome?_dryRun halike hjson hx, ?_, hj, hprogram, hargs⟩
    rw [World.printed_printed, hprinted]
    rfl

/-- Nine processors. -/
def ninefold : Settings := { flags := ["-smp", "9"] }

theorem ninefold_is_shown :
    ∃ r, r ∈ ((run ninefold).perform boardMachine boardWorld).2.runs ∧ IsLaunch r ∧
      (∃ line w₁, outcome? none ["--dry-run", "-smp", "9"] boardMachine boardWorld = some (0, w₁) ∧
        w₁.printed = [line ++ "\n"] ∧
        Shell.words? line = some (r.start.command.program.text :: r.start.command.args)) ∧
      ∃ text w₂ j,
        outcome? none ["--dry-run", "--json", "-smp", "9"] boardMachine boardWorld = some (0, w₂) ∧
        w₂.printed = [text] ∧ Json.read text = some j ∧
        j.field? "program" = some (.str r.start.command.program.text) ∧
        j.field? "args" = some (.arr (r.start.command.args.map .str)) := by
  have hread : read none ninefold.flags = .run ninefold := by rfl
  have hnone := @no_overlay_of_not_mem ninefold.flags (by decide)
  have hended : resultCode ((run ninefold).perform boardMachine boardWorld).1 = 0 := by
    decide +kernel
  rcases run_launches boardMachine boardWorld (fun o ho => overlays_parse ho hnone) with
    ⟨-, hdry | hfailed⟩ | ⟨-, -, r, -, -, -, ⟨rs, hrs, honly⟩, -⟩
  · cases hdry
  · cases hended.symm.trans hfailed
  obtain ⟨-, hshown⟩ := dry_run_shows_the_launch hread hnone
    (by rw [outcome?, hread]) hrs honly.mem honly.isLaunch
  refine ⟨r, ?_, honly.isLaunch, hshown boardMachine ⟨rfl, rfl, fun _ _ _ _ => rfl⟩⟩
  rw [hrs]
  exact honly.mem

end VirtBoard.CommandLine.Launcher
