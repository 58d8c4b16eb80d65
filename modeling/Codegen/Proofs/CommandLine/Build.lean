import Codegen.CommandLine.Session
import Mathlib.Data.List.Basic

/-!
# What a Build Does to Files

A build chooses its options, compiles its input and writes the text. Only the last step
touches files, so a build that fails before has changed nothing. The last step itself fails
without a change if there is no such place, and with one if the device is full. A build that
succeeds has left everything as it was but at one place, the place of the output; this is not
the place of the input unless the path of the input already has the extension of the target, or
the options say so. Log files are made only for those who ask for them.

## Theorems

* `Session.build_frame`: A command line that asks for a build.
-/

namespace Codegen

open List

/-- A path is its stem and its extension. -/
theorem Path.stem_append_extension (path : Bytes) : stem path ++ extension path = path := by
  have hsuffix : extension path <:+ path := by
    unfold extension
    extract_lets isPoint tail
    obtain ⟨rest, hrest⟩ : tail <+: path.reverse := takeWhile_prefix _
    have hpath := congrArg reverse hrest
    rw [reverse_append, reverse_reverse] at hpath
    rw [← hrest, drop_left]
    cases rest with
    | nil => exact nil_suffix
    | cons b rest =>
      dsimp only
      split
      · rw [← hpath, reverse_cons, append_assoc]
        exact suffix_append ..
      · exact nil_suffix
  exact suffix_iff_eq_append.mp hsuffix

/-- When a derived path is the path of the input. -/
theorem Options.outputPath_eq_iff {o : Options} (houtput : o.output = []) (input : Bytes) :
    o.outputPath input = input ↔ Path.extension input = o.extension := by
  have hpath := Path.stem_append_extension input
  rw [outputPath, houtput, if_neg (by simp)]
  nth_rewrite 2 [← hpath]
  rw [append_right_inj, eq_comm]

theorem Files.lookup_set (files : Files) (place contents other : Bytes) :
    (files.set place contents).contents.lookup other =
      if other = place then some contents else files.contents.lookup other := by
  unfold set
  by_cases h : other = place
  · simp [h]
  · simp only [lookup_cons, beq_eq_false_iff_ne.mpr h, if_neg h]
    induction files.contents with
    | nil => rfl
    | cons f fs ih => grind

theorem Files.locate_destination {files : Files} {path place : Bytes}
    (h : files.destination path = .ok place) : files.locate path = .ok place := by
  unfold destination at h
  cases hplace : files.locate path with
  | error => rw [hplace] at h; cases h
  | ok place =>
    simp only [hplace, bind, Except.bind] at h
    repeat' split at h
    all_goals cases h
    all_goals rfl

/-- There is room for a text, or the device takes it up to its limit. -/
theorem Files.checkRoom_cases (files : Files) (path text : Bytes) :
    (files.checkRoom path text = .ok () ∧ files.taken text = text) ∨
      ∃ limit, files.checkRoom path text = .error (.full path) ∧ files.limit = some limit ∧
        limit < text.length ∧ files.taken text = text.take limit := by
  unfold checkRoom taken
  cases files.limit with
  | none => exact .inl ⟨if_neg (Nat.lt_irrefl _), rfl⟩
  | some limit =>
    by_cases hfits : text.length ≤ limit
    · refine .inl ⟨if_neg ?_, take_of_length_le hfits⟩
      simp [take_of_length_le hfits]
    · have hlt := Nat.lt_of_not_le hfits
      refine .inr ⟨limit, if_pos ?_, rfl, hlt, rfl⟩
      rwa [length_take, Nat.min_eq_left (Nat.le_of_lt hlt)]

namespace Session

variable {α β ε : Type} {L : Prop} {x : Session α} {k : α → Session β} {R : Files → α → Prop}
  {F : α → Files → CommandError → Files → Prop} {S : α → Files → β → Files → Prop}

/-- What a session does to the world. If it fails, it has done nothing to files, or what a relation
    between the files, the cause and the files after it says. Otherwise a second relation says what
    it has done and what its result is. It logs to files only if that was asked for. -/
structure Leads (L : Prop) (x : Session α) (F : Files → CommandError → Files → Prop)
    (R : Files → α → Files → Prop) : Prop where
  failed {w w' : World} {cause : CommandError} :
    x.run.run w = (.error cause, w') → w'.files = w.files ∨ F w.files cause w'.files
  done {w w' : World} {a : α} : x.run.run w = (.ok a, w') → R w.files a w'.files
  logged {w w' : World} {r : Except CommandError α} :
    x.run.run w = (r, w') → w'.logged = true → w.logged = true ∨ L

/-- A session that leaves the files alone, with what its result has to do with them. -/
abbrev Finds (L : Prop) (x : Session α) (R : Files → α → Prop) : Prop :=
  Leads L x (fun _ _ _ => False) fun files a files' => R files a ∧ files' = files

theorem run_bind (w : World) : (x >>= k).run.run w = match x.run.run w with
    | (.error cause, w₁) => (.error cause, w₁)
    | (.ok a, w₁) => (k a).run.run w₁ := by
  rw [ExceptT.run_bind, StateT.run_bind]
  rcases x.run.run w with ⟨_ | a, w₁⟩ <;> rfl

/-- Sessions one after the other. -/
theorem Leads.bind (hx : Finds L x R) (hk : ∀ a, Leads L (k a) (F a) (S a)) :
    Leads L (x >>= k) (fun files cause files' => ∃ a, R files a ∧ F a files cause files')
      fun files b files' => ∃ a, R files a ∧ S a files b files' := by
  constructor <;> intro w w' _ h <;> rw [run_bind] at h <;>
    rcases hrun : x.run.run w with ⟨_ | a, w₁⟩ <;> rw [hrun] at h
  · cases h
    exact .inl ((hx.failed hrun).resolve_right id)
  · obtain ⟨ha, hfiles⟩ := hx.done hrun
    rcases (hk a).failed h with hsame | hfailed
    · exact .inl (hsame.trans hfiles)
    · exact .inr ⟨a, ha, hfiles ▸ hfailed⟩
  · cases h
  · exact ⟨a, (hx.done hrun).1, (hx.done hrun).2 ▸ (hk a).done h⟩
  · cases h
    exact hx.logged hrun
  · exact fun hlogged => ((hk a).logged h hlogged).elim (hx.logged hrun) .inr

theorem Leads.imp {F G : Files → CommandError → Files → Prop} {R S : Files → α → Files → Prop}
    (h : Leads L x F R) (hfailed : ∀ files cause files', F files cause files' → G files cause files')
    (hdone : ∀ files a files', R files a files' → S files a files') : Leads L x G S :=
  ⟨fun hrun => (h.failed hrun).imp id (hfailed _ _ _), fun hrun => hdone _ _ _ (h.done hrun), h.logged⟩

/-- Sessions that leave the files alone, one after the other. -/
theorem Finds.bind {S : α → Files → β → Prop} (hx : Finds L x R) (hk : ∀ a, Finds L (k a) (S a)) :
    Finds L (x >>= k) fun files b => ∃ a, R files a ∧ S a files b :=
  (Leads.bind hx hk).imp (fun _ _ _ ⟨_, _, h⟩ => h) fun _ _ _ ⟨a, ha, hb, hfiles⟩ =>
    ⟨⟨a, ha, hb⟩, hfiles⟩

theorem Finds.imp {S : Files → α → Prop} (h : Finds L x R) (himp : ∀ files a, R files a → S files a) :
    Finds L x S :=
  Leads.imp h (fun _ _ _ => id) fun _ _ _ ⟨ha, hfiles⟩ => ⟨himp _ _ ha, hfiles⟩

theorem leads_throw (cause : CommandError) {F : Files → CommandError → Files → Prop}
    {R : Files → α → Files → Prop} : Leads L (throw cause) F R := by
  constructor <;> intro w w' _ h <;> cases h
  · exact .inl rfl
  · exact .inl

theorem Leads.of_run {F : Files → CommandError → Files → Prop} {R : Files → α → Files → Prop}
    (h : ∀ w, ∃ a w', x.run.run w = (.ok a, w') ∧ R w.files a w'.files ∧
      (w'.logged = true → w.logged = true ∨ L)) : Leads L x F R := by
  constructor <;> intro w _ _ hrun <;> obtain ⟨a, w', hrun', hR, hlogged⟩ := h w <;>
    cases hrun.symm.trans hrun'
  · exact hR
  · exact hlogged

theorem finds_pure (a : α) : Finds L (pure a) fun _ b => a = b :=
  .of_run fun _ => ⟨_, _, rfl, ⟨rfl, rfl⟩, .inl⟩

theorem finds_get : Finds L get fun files w => w.files = files :=
  .of_run fun _ => ⟨_, _, rfl, ⟨rfl, rfl⟩, .inl⟩

theorem finds_lift (wrap : ε → CommandError) (r : Except ε α) :
    Finds L (lift wrap r) fun _ a => r = .ok a := by
  cases r with
  | error => exact leads_throw _
  | ok a => exact (finds_pure a).imp fun _ _ => congrArg _

/-- The flags ask for log files. -/
def Logs (p : Parsed) : Prop := 0 < p.integer "verbose" ∧ p.switch "logtostderr" = false

theorem finds_note (p : Parsed) {level : Int64} (hlevel : 0 < level) (isThere : Bool) :
    Finds (Logs p) (note p level isThere) fun _ _ => True := by
  refine .of_run fun w => ⟨_, _, rfl, ⟨trivial, rfl⟩, fun hlogged => ?_⟩
  rcases (Bool.or_eq_true _ _).mp hlogged with hlogged | hlogs
  · exact .inl hlogged
  · obtain ⟨hverbose, hstream⟩ := Bool.and_eq_true_iff.mp (Bool.and_eq_true_iff.mp hlogs).2
    exact .inr ⟨Int64.lt_of_lt_of_le hlevel (of_decide_eq_true hverbose), by simpa using hstream⟩

/-- The options that a build ends up with. -/
def Chosen (p : Parsed) (input : Bytes) (files : Files) (opts : Options) : Prop :=
  ∃ base, Options.resolve files (p.text "config") input = .ok base ∧
    opts.validate = .ok () ∧ override p base = opts

theorem finds_options (p : Parsed) (input : Bytes) (decode : Config.Decoder) :
    Finds (Logs p) (options p input decode) fun files opts =>
      ∃ base, Options.resolve files (p.text "config") input decode = .ok base ∧
        opts.validate = .ok () ∧ override p base = opts := by
  refine (Finds.bind finds_get fun _ => .bind (finds_note p (by decide) _) fun _ =>
    .bind (finds_lift _ _) fun _ => .bind (finds_lift _ _) fun _ => finds_pure _).imp ?_
  rintro files opts ⟨w, rfl, _, -, base, hbase, _, hvalid, rfl⟩
  exact ⟨base, hbase, hvalid, rfl⟩

theorem finds_compileFile (p : Parsed) (path : Bytes) (opts : Options) :
    Finds (Logs p) (compileFile p path opts) fun files text => ∃ source g,
      files.read path = .ok source ∧ compileSource opts source = .ok g ∧ g.text = text := by
  have hread : Finds (Logs p) (readFile path) fun files source => files.read path = .ok source := by
    refine (Finds.bind finds_get fun _ => finds_lift _ _).imp ?_
    rintro files source ⟨w, rfl, h⟩
    exact h
  have hcompile (source : Bytes) : Finds (Logs p) (compile p path source opts) fun _ text =>
      ∃ g, compileSource opts source = .ok g ∧ g.text = text := by
    have hwarn (text : Bytes) : Finds (Logs p) (warn text) fun _ _ => True :=
      .of_run fun _ => ⟨_, _, rfl, ⟨trivial, rfl⟩, .inl⟩
    unfold compile
    split
    · next g hg =>
      have hreport {x : Session Bytes} (hx : x = pure g.text ∨ ∃ cause, x = throw cause) :
          Finds (Logs p) x fun _ text => g.text = text := by
        rcases hx with rfl | ⟨cause, rfl⟩
        · exact finds_pure _
        · exact leads_throw _
      refine (Finds.bind (finds_note p (by decide) _) fun _ => .bind (finds_note p (by decide) _)
        fun _ => .bind (hwarn _) fun _ => hreport ?_).imp ?_
      · split
        · exact .inr ⟨_, rfl⟩
        · exact .inl rfl
      · rintro _ _ ⟨_, _, _, _, _, _, htext⟩
        exact ⟨g, hg, htext⟩
    all_goals exact leads_throw _
  refine (Finds.bind hread hcompile).imp ?_
  rintro files text ⟨source, hread, g, h⟩
  exact ⟨source, g, hread, h⟩

/-- A build has left the text of its input at the place of the output, and all else as it was. A
    path that no option names is that of the input if the input has the extension already. -/
def Built (opts : Options) (input : Bytes) (files files' : Files) : Prop :=
  ∃ source g place, files.read input = .ok source ∧ compileSource opts source = .ok g ∧
    files.locate (opts.outputPath input) = .ok place ∧
    (∀ other, files'.contents.lookup other =
      if other = place then some g.text else files.contents.lookup other) ∧
    files'.directories = files.directories ∧
    (opts.output = [] → (opts.outputPath input = input ↔ Path.extension input = opts.extension))

/-- A build has failed because the device is full, and has left the beginning of the text at the
    place of the output, and all else as it was. -/
def Torn (opts : Options) (input : Bytes) (files : Files) (cause : CommandError) (files' : Files) :
    Prop :=
  ∃ source g place limit, files.read input = .ok source ∧ compileSource opts source = .ok g ∧
    files.locate (opts.outputPath input) = .ok place ∧
    cause = .unwritable (opts.outputPath input) (.full (opts.outputPath input)) ∧
    files.limit = some limit ∧ limit < g.text.length ∧
    (∀ other, files'.contents.lookup other =
      if other = place then some (g.text.take limit) else files.contents.lookup other) ∧
    files'.directories = files.directories

/-- Writing puts as much at the place of a file as the device takes, and fails if that is not all. -/
theorem leads_write (L : Prop) (path text message : Bytes) :
    Leads L (do writeFile path text; print message)
      (fun files cause files' => ∃ place limit, files.locate path = .ok place ∧
        cause = .unwritable path (.full path) ∧ files.limit = some limit ∧ limit < text.length ∧
        files' = files.set place (text.take limit))
      fun files _ files' => ∃ place, files.locate path = .ok place ∧ files' = files.set place text := by
  -- After the place is found there is one change to files, and then a failure or a message.
  have hstore (files : Files) (place : Bytes) : Leads L (do
      modify fun w : World => { w with files := files.set place (files.taken text) }
      lift (.unwritable path) (files.checkRoom path text)
      print message)
      (fun _ cause files' => ∃ limit, cause = .unwritable path (.full path) ∧
        files.limit = some limit ∧ limit < text.length ∧ files' = files.set place (text.take limit))
      fun _ _ files' => files' = files.set place text := by
    rcases files.checkRoom_cases path text with ⟨hroom, htaken⟩ | ⟨limit, hroom, hlimit, hlt, htaken⟩
    · rw [hroom, htaken]
      exact .of_run fun _ => ⟨_, _, rfl, rfl, .inl⟩
    · rw [hroom, htaken]
      constructor <;> intro w w' _ h <;> cases h
      · exact .inr ⟨limit, rfl, hlimit, hlt, rfl⟩
      · exact .inl
  unfold writeFile
  simp only [bind_assoc]
  refine (Leads.bind finds_get fun w => .bind (finds_lift _ (w.files.destination path)) fun place =>
    hstore w.files place).imp ?_ ?_
  · rintro files cause files' ⟨w, rfl, place, hplace, limit, hcause, h⟩
    exact ⟨place, limit, Files.locate_destination hplace, hcause, h⟩
  · rintro files _ files' ⟨w, rfl, place, hplace, rfl⟩
    exact ⟨place, Files.locate_destination hplace, rfl⟩

/-- A build. -/
theorem leads_build (p : Parsed) (input : Bytes) : Leads (Logs p) (build p input)
    (fun files cause files' => ∃ opts, Chosen p input files opts ∧ Torn opts input files cause files')
    fun files _ files' => ∃ opts, Chosen p input files opts ∧ Built opts input files files' := by
  refine (Leads.bind (finds_options p input _) fun opts =>
    .bind (finds_compileFile p input opts) fun text => leads_write _ _ text _).imp ?_ ?_
  · rintro files cause files' ⟨opts, hopts, text, ⟨source, g, hread, hg, rfl⟩, place, limit, hplace,
      hcause, hlimit, hlt, rfl⟩
    exact ⟨opts, hopts, source, g, place, limit, hread, hg, hplace, hcause, hlimit, hlt,
      files.lookup_set place _, rfl⟩
  · rintro files _ files' ⟨opts, hopts, text, ⟨source, g, hread, hg, rfl⟩, place, hplace, rfl⟩
    exact ⟨opts, hopts, source, g, place, hread, hg, hplace, files.lookup_set place g.text, rfl,
      fun houtput => opts.outputPath_eq_iff houtput input⟩

/-- What a command line that asks for a build does to files. If it fails, that is nothing, unless
    the device was full when the text was written; if it asks for help, that is nothing, too;
    otherwise the build is done. Log files are made only if its flags ask for them. -/
theorem build_frame (w w' : World) (host : Host) {args rest : List Bytes}
    (hbuild : Command.find args = .ok (.build, rest)) :
    (∀ cause, w.run host args = (.error cause, w') → w'.files = w.files ∨
      ∃ p input opts, Parsed.ofArgs (Command.build.flags ++ [Command.helpFlag]) rest = .ok p ∧
        p.args = [input] ∧ Chosen p input w.files opts ∧ Torn opts input w.files cause w'.files) ∧
    (w.run host args = (.ok (), w') →
      ∃ p, Parsed.ofArgs (Command.build.flags ++ [Command.helpFlag]) rest = .ok p ∧
        (p.switch "help" = true ∧ w'.files = w.files ∨ ∃ input opts, p.args = [input] ∧
          Chosen p input w.files opts ∧ Built opts input w.files w'.files)) ∧
    (∀ result, w.run host args = (result, w') → w'.logged = true → w.logged = true ∨
      ∃ p, Parsed.ofArgs (Command.build.flags ++ [Command.helpFlag]) rest = .ok p ∧ Logs p) := by
  suffices hline : Leads
      (∃ p, Parsed.ofArgs (Command.build.flags ++ [Command.helpFlag]) rest = .ok p ∧ Logs p)
      (commandLine host args)
      (fun files cause files' => ∃ p input opts,
        Parsed.ofArgs (Command.build.flags ++ [Command.helpFlag]) rest = .ok p ∧
        p.args = [input] ∧ Chosen p input files opts ∧ Torn opts input files cause files')
      fun files _ files' =>
        ∃ p, Parsed.ofArgs (Command.build.flags ++ [Command.helpFlag]) rest = .ok p ∧
          (p.switch "help" = true ∧ files' = files ∨ ∃ input opts, p.args = [input] ∧
            Chosen p input files opts ∧ Built opts input files files') from
    ⟨fun _ => hline.failed, hline.done, fun _ => hline.logged⟩
  have hfound : lift .unknownCommand (Command.find args) = pure (.build, rest) := by rw [hbuild]; rfl
  rw [commandLine, hfound, pure_bind]
  dsimp only
  cases hp : Parsed.ofArgs (Command.build.flags ++ [Command.helpFlag]) rest with
  | error cause => exact leads_throw (.flags cause)
  | ok p =>
    have hparsed : lift .flags (.ok p) = (pure p : Session Parsed) := rfl
    rw [hparsed, pure_bind]
    split
    · next hhelp =>
      refine Leads.imp (finds_pure ()) (fun _ _ _ => False.elim) fun _ _ _ ⟨_, hfiles⟩ =>
        ⟨p, rfl, .inl ⟨?_, hfiles⟩⟩
      simpa [isRunnable] using hhelp
    split
    · next input hargs =>
      have hdone := leads_build p input
      refine ⟨fun hrun => (hdone.failed hrun).imp id fun ⟨opts, h⟩ => ⟨p, input, opts, rfl, hargs, h⟩,
        fun hrun => ?_, fun hrun hlogged => (hdone.logged hrun hlogged).imp id fun h => ⟨p, rfl, h⟩⟩
      obtain ⟨opts, h⟩ := hdone.done hrun
      exact ⟨p, rfl, .inr ⟨input, opts, hargs, h⟩⟩
    · exact leads_throw _

theorem build_frame_configured :
    let w : World := { files := { contents :=
      [("kwc.yaml", "target: wasm\n"), ("a.kwast", "(program)")] } }
    let host : Host := { arch := "amd64" }
    Command.find ["build", "a.kwast"] = .ok (.build, ["a.kwast"]) ∧
      (w.run host ["build", "a.kwast"]).1.isOk = true ∧ ∃ opts,
        Built opts "a.kwast" w.files (w.run host ["build", "a.kwast"]).2.files := by
  intro w host
  have hbuild : Command.find ["build", "a.kwast"] = .ok (.build, ["a.kwast"]) := by decide
  have hok : (w.run host ["build", "a.kwast"]).1.isOk = true := by decide +kernel
  refine ⟨hbuild, hok, ?_⟩
  rcases hrun : w.run host ["build", "a.kwast"] with ⟨_ | _, w'⟩ <;> rw [hrun] at hok
  · cases hok
  obtain ⟨p, hp, ⟨hhelp, -⟩ | ⟨input, opts, hargs, -, hbuilt⟩⟩ := (build_frame w w' host hbuild).2.1 hrun
  all_goals cases hp
  · cases hhelp
  · cases hargs
    exact ⟨opts, hbuilt⟩

/-- A document whose path has the extension of the output is overwritten. -/
theorem build_frame_overwriting :
    let w : World := { files := { contents := [("a.s", "(program)")] } }
    Command.find ["build", "a.s"] = .ok (.build, ["a.s"]) ∧
      ((options {} "a.s").run.run w).1 = .ok {} ∧ ({} : Options).outputPath "a.s" = "a.s" ∧
      (w.run { arch := "amd64" } ["build", "a.s"]).2.files.read "a.s" ≠ w.files.read "a.s" := by
  intro w
  refine ⟨by decide, rfl, by decide, ?_⟩
  decide +kernel

end Session

end Codegen
