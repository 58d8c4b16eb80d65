import Codegen.Proofs.CommandLine.Build
import Codegen.Proofs.Document.Settled

/-!
# Where Options Come From

An option is what its flag says, else what the configuration file says, else the default. This
does not depend on how the file is written: `Config.Lawful` is all that is asked of what reads it.

Here the file is a mapping, and what it says about an option is a matter of entries: the first
entry with its key counts, and only if it has a value. The file is read entry by entry, with a
list of the keys that had their turn; `Reached` is what holds after some entries, provided that
nothing was refused.

Switches are an exception: one that is given as false leaves the option to the file.

## Theorems

* `Session.options_precedence`: The options of a command.
-/

namespace Codegen

open List

namespace Config

/-- What a file says about each option. -/
structure Settings where
  target : Option Bytes := none
  os : Option Bytes := none
  optimize : Option Bool := none
  strict : Option Bool := none
  output : Option Bytes := none

/-- The options with what a file says. -/
def Settings.over (s : Settings) (o : Options) : Options where
  target := s.target.getD o.target
  os := s.os.getD o.os
  optimize := s.optimize.getD o.optimize
  strict := s.strict.getD o.strict
  output := s.output.getD o.output

/-- What is asked of a decoder: if it accepts a text, the options are what the text says on top of
    those that were there. -/
structure Lawful (decode : Decoder) (settings : Bytes → Settings) : Prop where
  accepted {o o' : Options} {source : Bytes} :
    decode o source = .ok o' → o' = (settings source).over o

/-- The key and the value of an entry. -/
abbrev Entry := Yaml.Node × Yaml.Node

/-- The name that a key of a mapping denotes; a key that merges mappings has none. -/
def name? (key : Yaml.Node) : Option Bytes :=
  if isMerge key then none
  else match string key with
    | .ok (.value name) => some name
    | _ => none

/-- What was read, if it is not null. -/
def value? {α : Type} : Except Yaml.Cause (Reading α) → Option α
  | .ok (.value v) => some v
  | _ => none

/-- The value of the first entry of a name, if it is not null. -/
def setting? {α : Type} (read : Yaml.Node → Except Yaml.Cause (Reading α)) (name : Bytes)
    (entries : List Entry) : Option α :=
  (entries.find? fun e => name? e.1 = some name).bind fun e => value? (read e.2)

/-- The entries of a mapping. -/
def Layer.entriesOf : Layer → List Entry
  | .entries es => es
  | _ => []

/-- The entries of a file, those of merged mappings last. -/
def entriesOf (source : Bytes) : List Entry :=
  match Yaml.Node.read source with
  | .ok (some (.mapping _ _ es)) => (layers es).flatMap Layer.entriesOf
  | _ => []

/-- What entries say about each option. -/
def Settings.ofEntries (es : List Entry) : Settings where
  target := setting? string "target" es
  os := setting? string "os" es
  optimize := setting? bool "optimize" es
  strict := setting? bool "strict" es
  output := setting? string "output" es

/-- The options after entries. -/
def settled (o : Options) (es : List Entry) : Options := (Settings.ofEntries es).over o

/-- The options after an entry. -/
def assigned (o : Options) (name : Bytes) (value : Yaml.Node) : Options where
  target := if name = "target" then (value? (string value)).getD o.target else o.target
  os := if name = "os" then (value? (string value)).getD o.os else o.os
  optimize := if name = "optimize" then (value? (bool value)).getD o.optimize else o.optimize
  strict := if name = "strict" then (value? (bool value)).getD o.strict else o.strict
  output := if name = "output" then (value? (string value)).getD o.output else o.output

/-- What an assignment has come to after entries, if nothing was refused. -/
def Reached (o : Options) (es : List Entry) (a : Assignment) : Prop :=
  a.errors = [] → (∀ name, name ∈ a.taken ↔ ∃ e ∈ es, name? e.1 = some name) ∧
    a.options = settled o es

variable {α : Type} {o : Options} {es : List Entry} {a a' : Assignment} {key value : Yaml.Node}
  {isMerged : Bool}

theorem reached_nil (o : Options) : Reached o [] { options := o } :=
  fun _ => ⟨by simp, rfl⟩

/-- A further entry counts for a name that has had none. -/
theorem setting?_concat (read : Yaml.Node → Except Yaml.Cause (Reading α)) (name : Bytes) :
    setting? read name (es ++ [(key, value)]) =
      if name? key = some name ∧ ¬ ∃ e ∈ es, name? e.1 = some name then value? (read value)
      else setting? read name es := by
  simp only [setting?, find?_append]
  cases hfind : es.find? fun e => name? e.1 = some name with
  | none =>
    have hnone : ¬ ∃ e ∈ es, name? e.1 = some name := by simpa using hfind
    simp only [hnone, find?_singleton]
    split <;> simp_all
  | some e =>
    have hsome : ∃ e ∈ es, name? e.1 = some name :=
      ⟨e, mem_of_find?_eq_some hfind, by simpa using find?_some hfind⟩
    simp [hsome]

theorem refuse_ok {errors : List Bytes} (h : (a.refuse errors).errors = []) :
    a.errors = [] ∧ a.refuse errors = a := by
  obtain ⟨herrors, rfl⟩ := append_eq_nil_iff.mp h
  exact ⟨herrors, by rw [Assignment.refuse, append_nil]⟩

/-- A key that is no name, or a name that had its turn, changes nothing. -/
theorem Reached.skip (h : Reached o es a) (hkey : ∀ name, name? key = some name → name ∈ a.taken) :
    Reached o (es ++ [(key, value)]) a := by
  intro herrors
  obtain ⟨htaken, hoptions⟩ := h herrors
  have hold (name : Bytes) (hname : name? key = some name) := (htaken name).mp (hkey name hname)
  refine ⟨fun name => ?_, ?_⟩
  · rw [htaken]
    simpa [or_and_right, exists_or] using hold name
  · have hsame {α : Type} (read : Yaml.Node → Except Yaml.Cause (Reading α)) (name : Bytes) :
        setting? read name (es ++ [(key, value)]) = setting? read name es := by
      rw [setting?_concat, if_neg fun h => h.2 (hold name h.1)]
    rw [hoptions]
    simp only [settled, Settings.over, Settings.ofEntries, hsame]

theorem set_ok {x : Except Yaml.Cause (Reading α)} {update : Options → α → Options} (old : α)
    (h : (x >>= fun r => pure (a.set r update)) = .ok a') (herrors : a'.errors = [])
    (hold : update a.options old = a.options) :
    a.errors = [] ∧ a'.taken = a.taken ∧ a'.options = update a.options ((value? x).getD old) := by
  obtain ⟨r, rfl, h⟩ := ok_of_bind h
  cases h
  cases r with
  | value => exact ⟨herrors, rfl, rfl⟩
  | nothing => exact ⟨herrors, rfl, hold.symm⟩
  | refused => exact ⟨(append_eq_nil_iff.mp herrors).1, rfl, hold.symm⟩

theorem assign_ok {name : Bytes} (h : a.assign name value = .ok a') (herrors : a'.errors = []) :
    a.errors = [] ∧ a'.taken = a.taken ∧ a'.options = assigned a.options name value := by
  unfold Assignment.assign at h
  split at h
  · next hname => exact hname ▸ set_ok a.options.target h herrors rfl
  split at h
  · next hname => exact hname ▸ set_ok a.options.os h herrors rfl
  split at h
  · next hname => exact hname ▸ set_ok a.options.optimize h herrors rfl
  split at h
  · next hname => exact hname ▸ set_ok a.options.strict h herrors rfl
  split at h
  · next hname => exact hname ▸ set_ok a.options.output h herrors rfl
  · cases h
    simp_all [assigned]

/-- A name that has had no turn sets its option. -/
theorem Reached.assign {name : Bytes} (h : Reached o es a) (hkey : name? key = some name)
    (hnew : name ∉ a.taken)
    (hassign : Assignment.assign { a with taken := name :: a.taken } name value = .ok a') :
    Reached o (es ++ [(key, value)]) a' := by
  intro herrors
  obtain ⟨herrors, htaken', hoptions'⟩ := assign_ok hassign herrors
  obtain ⟨htaken, hoptions⟩ := h herrors
  rw [htaken] at hnew
  refine ⟨fun other => ?_, ?_⟩
  · simp [htaken', htaken, hkey, or_comm, eq_comm]
  have hconcat {α : Type} (read : Yaml.Node → Except Yaml.Cause (Reading α)) (other : Bytes) (d : α) :
      (setting? read other (es ++ [(key, value)])).getD d =
        if name = other then (value? (read value)).getD ((setting? read other es).getD d)
        else (setting? read other es).getD d := by
    rw [setting?_concat, hkey]
    by_cases hname : name = other
    · subst hname
      have hnone : setting? read name es = none := by
        rw [setting?, find?_eq_none.mpr (by simpa using hnew)]
        rfl
      rw [if_pos ⟨rfl, hnew⟩, if_pos rfl, hnone]
      rfl
    · rw [if_neg fun h => hname (Option.some.inj h.1), if_neg hname]
  rw [hoptions', assigned, hoptions]
  simp only [settled, Settings.over, Settings.ofEntries, hconcat]

/-- One entry. -/
theorem reached_entry (h : Reached o es a) (hentry : a.entry isMerged key value = .ok a') :
    Reached o (es ++ [(key, value)]) a' := by
  unfold Assignment.entry at hentry
  split at hentry
  · next hmerge =>
    cases hentry
    exact h.skip fun name hname => by simp [name?, hmerge] at hname
  next hmerge =>
  obtain ⟨r, hr, hentry⟩ := ok_of_bind hentry
  cases r with
  | nothing =>
    cases hentry
    exact h.skip fun name hname => by simp [name?, hmerge, hr] at hname
  | refused errors =>
    cases hentry
    intro herrors
    obtain ⟨herrors, heq⟩ := refuse_ok herrors
    rw [heq]
    exact h.skip (fun name hname => by simp [name?, hmerge, hr] at hname) herrors
  | value name =>
    have hname : name? key = some name := by rw [name?, if_neg hmerge, hr]
    dsimp only at hentry
    split at hentry
    · next htaken => exact h.assign hname (by simpa using htaken) hentry
    next htaken =>
    split at hentry <;> cases hentry
    · intro herrors
      cases (append_eq_nil_iff.mp herrors).2
    · refine h.skip fun other hother => ?_
      cases hname.symm.trans hother
      simpa using htaken

/-- One thing after the other, each with its entries. -/
theorem reached_foldlM {β : Type} {f : Assignment → β → Except Yaml.Cause Assignment}
    {g : β → List Entry} {xs : List β} (hstep : ∀ es a x a', Reached o es a → f a x = .ok a' →
      Reached o (es ++ g x) a') (h : Reached o es a) (hfold : xs.foldlM f a = .ok a') :
    Reached o (es ++ xs.flatMap g) a' := by
  induction xs generalizing es a with
  | nil =>
    cases hfold
    simpa using h
  | cons x xs ih =>
    obtain ⟨a₁, hfirst, hrest⟩ := ok_of_bind hfold
    simpa using ih (hstep _ _ _ _ h hfirst) hrest

theorem reached_layer {l : Layer} (h : Reached o es a) (hlayer : a.layer isMerged l = .ok a') :
    Reached o (es ++ l.entriesOf) a' := by
  cases l with
  | entries fs =>
    have hfold := reached_foldlM (g := fun e => [e])
      (fun _ _ _ _ h hentry => reached_entry h hentry) h hlayer
    simpa [Layer.entriesOf] using hfold
  | refused errors =>
    cases hlayer
    intro herrors
    obtain ⟨herrors, heq⟩ := refuse_ok herrors
    rw [heq]
    exact (append_nil es).symm ▸ h herrors
  | unfit => cases hlayer

theorem reached_all {ls : List Layer} (h : Reached o [] a) (hall : a.all ls = .ok a') :
    Reached o (ls.flatMap Layer.entriesOf) a' := by
  cases ls with
  | nil =>
    cases hall
    exact h
  | cons l ls =>
    obtain ⟨a₁, hfirst, hmore⟩ := ok_of_bind hall
    exact reached_foldlM (fun _ _ _ _ => reached_layer) (reached_layer h hfirst) hmore

theorem lawful_parse : Lawful parse fun source => .ofEntries (entriesOf source) := by
  constructor
  intro o o' source h
  change o' = settled o (entriesOf source)
  obtain ⟨node, hread, h⟩ := ok_of_bind h
  rw [entriesOf, ok_of_mapError hread]
  cases node with
  | none =>
    cases h
    rfl
  | some node =>
    obtain ⟨a, ha, h⟩ := ok_of_bind h
    replace ha := ok_of_mapError ha
    split at h
    · next herrors =>
      cases h
      rw [List.isEmpty_iff] at herrors
      cases node with
      | mapping => exact (reached_all (reached_nil o) ha herrors).2
      | _ => exact (set_ok () ha herrors rfl).2.2
    · cases h

end Config

namespace Session

/-- The entries of the file that a command takes options from. -/
def configured (files : Files) (config input : Bytes) : List Config.Entry :=
  match files.read (if config.isEmpty then Options.implicitFile input else config) with
  | .ok source => Config.entriesOf source
  | .error _ => []

/-- What that file says, as a decoder takes it. -/
def said (settings : Bytes → Config.Settings) (files : Files) (config input : Bytes) :
    Config.Settings :=
  match files.read (if config.isEmpty then Options.implicitFile input else config) with
  | .ok source => settings source
  | .error _ => {}

theorem said_entries (files : Files) (config input : Bytes) :
    said (fun source => .ofEntries (Config.entriesOf source)) files config input =
      .ofEntries (configured files config input) := by
  unfold said configured
  split <;> rfl

section Decoders

variable {decode : Config.Decoder} {settings : Bytes → Config.Settings} {files : Files}

theorem load_ok {path : Bytes} {o : Options} (hlawful : Config.Lawful decode settings)
    (h : Options.load files path {} decode = .ok o) :
    ∃ source, files.read path = .ok source ∧ o = (settings source).over {} := by
  obtain ⟨source, hread, h⟩ := ok_of_bind h
  obtain ⟨opts, hparse, h⟩ := ok_of_bind h
  obtain ⟨_, -, h⟩ := ok_of_bind h
  cases h
  exact ⟨source, ok_of_mapError hread, hlawful.accepted (ok_of_mapError hparse)⟩

theorem resolve_ok {config input : Bytes} {o : Options} (hlawful : Config.Lawful decode settings)
    (h : Options.resolve files config input decode = .ok o) :
    o = (said settings files config input).over {} := by
  unfold Options.resolve at h
  unfold said
  cases hconfig : config.isEmpty with
  | false =>
    rw [hconfig] at h
    obtain ⟨source, hread, ho⟩ := load_ok hlawful h
    rw [if_neg Bool.false_ne_true, hread]
    exact ho
  | true =>
    rw [hconfig, if_neg (by decide)] at h
    rw [if_pos rfl]
    split at h
    · obtain ⟨source, hread, ho⟩ := load_ok hlawful h
      rw [hread]
      exact ho
    · next hthere =>
      cases h
      cases hread : files.read (Options.implicitFile input) with
      | error => rfl
      | ok => simp [Files.isThere, hread] at hthere

/-- The value of a flag that was given, else what the file says, else the default. -/
def prevailing {α : Type} (p : Parsed) (name : Bytes) (flag : α) (file : Option α) (default : α) :
    α :=
  if p.isSet name then flag else file.getD default

/-- A switch that is given as false does not win over a file that turns it on. -/
theorem switch_prevails (p : Parsed) (name : Bytes) (file : Option Bool) (on : Bool) :
    (if p.switch name then on else file.getD !on) =
        prevailing p name (p.switch name == on) file (!on) ↔
      ¬ (p.isSet name = true ∧ p.switch name = false ∧ file = some on) := by
  unfold prevailing Parsed.switch Parsed.isSet
  rcases p.values.lookup name with _ | (_ | b | _) <;> rcases file with _ | c <;> cases on <;> simp
  cases b <;> simp

/-- Whatever reads the file, flags win over it, and it wins over the defaults, but for switches. -/
theorem precedence_of_lawful (hlawful : Config.Lawful decode settings) {w w' : World} {p : Parsed}
    {input : Bytes} {opts : Options}
    (h : (options p input decode).run.run w = (.ok opts, w')) :
    let file := said settings w.files (p.text "config") input
    let default : Options := {}
    opts.target = prevailing p "target" (p.text "target") file.target default.target ∧
    opts.os = prevailing p "os" (p.text "os") file.os default.os ∧
    opts.output = prevailing p "output" (p.text "output") file.output default.output ∧
    (opts.optimize = prevailing p "no-opt" (!p.switch "no-opt") file.optimize default.optimize ↔
      ¬ (p.isSet "no-opt" = true ∧ p.switch "no-opt" = false ∧ file.optimize = some false)) ∧
    (opts.strict = prevailing p "strict" (p.switch "strict") file.strict default.strict ↔
      ¬ (p.isSet "strict" = true ∧ p.switch "strict" = false ∧ file.strict = some true)) := by
  obtain ⟨⟨base, hbase, -, rfl⟩, -⟩ := (finds_options p input decode).done h
  rw [resolve_ok hlawful hbase]
  refine ⟨rfl, rfl, rfl, ?_, ?_⟩
  · simpa [override, Config.Settings.over] using switch_prevails p "no-opt" _ false
  · simpa [override, Config.Settings.over] using switch_prevails p "strict" _ true

end Decoders

/-- Flags win over the file, and the file over the defaults, but for switches: one that is given as
    false does not win over a file that turns it on. -/
theorem options_precedence {w w' : World} {p : Parsed} {input : Bytes} {opts : Options}
    (h : (options p input).run.run w = (.ok opts, w')) :
    let file := configured w.files (p.text "config") input
    let default : Options := {}
    opts.target = prevailing p "target" (p.text "target")
      (Config.setting? Config.string "target" file) default.target ∧
    opts.os = prevailing p "os" (p.text "os") (Config.setting? Config.string "os" file) default.os ∧
    opts.output = prevailing p "output" (p.text "output")
      (Config.setting? Config.string "output" file) default.output ∧
    (opts.optimize = prevailing p "no-opt" (!p.switch "no-opt")
        (Config.setting? Config.bool "optimize" file) default.optimize ↔
      ¬ (p.isSet "no-opt" = true ∧ p.switch "no-opt" = false ∧
        Config.setting? Config.bool "optimize" file = some false)) ∧
    (opts.strict = prevailing p "strict" (p.switch "strict")
        (Config.setting? Config.bool "strict" file) default.strict ↔
      ¬ (p.isSet "strict" = true ∧ p.switch "strict" = false ∧
        Config.setting? Config.bool "strict" file = some true)) := by
  have hprecedence := precedence_of_lawful Config.lawful_parse h
  rw [said_entries] at hprecedence
  exact hprecedence

/-- A file that turns a switch on, which is given as false on the command line. -/
def contested : World := { files := { contents := [("kwc.yaml", "strict: true\nos: linux\n")] } }

/-- The flags of that command line. -/
def givenFlags : Parsed := { values := [("strict", .switch false), ("os", .text "darwin")] }

theorem options_precedence_contested :
    ∃ opts w', (options givenFlags "a.kwast").run.run contested = (.ok opts, w') ∧
      opts.os = "darwin" ∧ opts.strict ≠ prevailing givenFlags "strict" (givenFlags.switch "strict")
        (Config.setting? Config.bool "strict" (configured contested.files [] "a.kwast")) false := by
  have hrun : (((options givenFlags "a.kwast").run.run contested).1.toOption).isSome = true := by
    decide +kernel
  have hfile : Config.setting? Config.bool "strict" (configured contested.files [] "a.kwast") =
      some true := by decide +kernel
  rcases h : (options givenFlags "a.kwast").run.run contested with ⟨_ | opts, w'⟩
  · rw [h] at hrun
    cases hrun
  · obtain ⟨-, hos, -, -, hstrict⟩ := options_precedence h
    exact ⟨opts, w', rfl, hos, fun heq => hstrict.mp heq ⟨rfl, rfl, hfile⟩⟩

end Session

end Codegen
