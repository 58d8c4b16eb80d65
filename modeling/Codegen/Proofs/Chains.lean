import Codegen.Proofs.Arm64.Control
import Codegen.Proofs.Arm64.Program
import Codegen.Proofs.Wasm.Control
import Codegen.Proofs.Wasm.Program

/-!
# Chains of Conditions

Both backends lower a chain of conditions, one to labels and branches that skip a body or the rest
of the chain, the other to conditions nested in each other. Control takes the same way through
both: it evaluates the conditions up to the first that is not zero, runs the body of that one, and
goes on behind the chain. A counting loop is entered as long as its counter is not above its last
number, so one that should end with the greatest integer does not end.

## Theorems

* `chain_first_true`: The way through a chain, in both backends.
-/

namespace Codegen

theorem Term.stmt?_cond {p : Payload} (hkind : p.kind = .cond) (parts : List Term) :
    (Term.node p parts).stmt? = some (.cond parts) := by
  simp [Term.stmt?, hkind]

/-- A chain of conditions is lowered to code that is put together from the code of its parts.
    Wherever it stands, and whatever its parts do as long as control falls through them: if the
    first condition that is not zero has a certain body, or none is and the chain has a certain
    `else` or nothing, then control goes through the conditions up to that one and through that
    body, and on to what is behind the chain. -/
theorem chain_first_true (flavor : Arm64.Flavor) (scratch : Nat) {p : Payload} {parts : List Term}
    (hkind : p.kind = .cond) (hf : Term.Formed [.node p parts]) {looping : Bool} {ctx : Context}
    (hin : ctx.Inside looping) :
    (∀ s, ∃ c s' ctx' cs, Ends (Arm64.stmt flavor (.node p parts)) s ctx c s' ctx' ∧
      Alternates (Arm64.Evaluated flavor) (Arm64.Emitted flavor) parts cs ∧
      ∀ (μ : Type) (w : Arm64.World μ) (program pre post : Arm64.Code) (m m' : Arm64.Machine × μ),
        program = pre ++ c ++ post → (Arm64.labels program).Nodup →
        FirstTrue (Arm64.Tests w program) (Arm64.Falls w program) cs m m' →
        Reaches (Arm64.next? w program) (c ++ post, m) (post, m')) ∧
    (∀ s, ∃ c s' ctx' cs, Ends (Wasm.stmt scratch (.node p parts)) s ctx c s' ctx' ∧
      Alternates (Wasm.Evaluated scratch) (Wasm.Emitted scratch) parts cs ∧
      ∀ (μ : Type) (w : Wasm.World μ) (m m' : Wasm.Machine × μ),
        FirstTrue (Wasm.Tests w) (Wasm.Falls w) cs m m' → Wasm.Falls w c m m') := by
  -- The chain is lowered by the rules of either backend, and the last of them puts it together.
  have hself : ctx.Agrees Eq ctx := .refl (fun _ => rfl) ctx
  have hstmt := Term.stmt?_cond hkind parts
  constructor
  · intro s
    rcases Arm64.performs_of_formed flavor hf _ List.mem_cons_self ctx looping s ctx hin hself with
      ⟨inner, c, _, s', ctx', hinner, h, -⟩
    cases hinner.symm.trans hstmt
    have hends := h.runs
    rw [Arm64.Task.Runs, ← Arm64.stmt_eq hstmt] at hends
    cases h with
    | @cond _ _ _ _ _ _ _ _ hchain =>
      rcases hchain.links with ⟨cs, halternates, hlinks⟩
      refine ⟨_, _, _, cs, hends, halternates, ?_⟩
      intro μ w program pre post m m' hplace hlabels hrun
      rw [List.append_assoc] at hplace ⊢
      rw [List.append_assoc] at hplace
      exact hlinks.reaches hlabels (hplace.trans (List.append_assoc _ _ _).symm) hrun
  · intro s
    rcases Wasm.performs_of_formed scratch hf _ List.mem_cons_self ctx looping s ctx hin hself with
      ⟨inner, c, _, s', ctx', _, hinner, h, -⟩
    cases hinner.symm.trans hstmt
    have hends := h.runs
    rw [Wasm.Task.Runs, ← Wasm.stmt_eq hstmt] at hends
    cases h with
    | cond hchain =>
      rcases hchain.links with ⟨cs, halternates, hlinks⟩
      exact ⟨_, _, _, cs, hends, halternates, fun μ w m m' => hlinks.falls⟩

namespace Sample

/-- Two conditions with bodies and an `else`. The first never holds and the second always does. -/
def choice : List Term :=
  [.node { kind := .boolean } [], .node { kind := .block } [],
    .node { kind := .boolean, boolean := true } [],
    .node { kind := .block } [.node { kind := .integer, integer := 7 } []],
    .node { kind := .block } []]

/-- A run in the body of a procedure. -/
def inside (target : Bytes) : Context := ({ target } : Context).beginning "main" .void

theorem formed_choice : Term.Formed [.node { kind := .cond } choice] := by
  have hblock {ts us : List Term} (hbody : Term.Formed ts) (h : Term.Formed us) :
      Term.Formed (.node { kind := .block } ts :: us) := .node _ _ _ trivial hbody h
  have hseven : Term.Formed [.node { kind := .integer, integer := 7 } []] :=
    .node _ _ _ ⟨rfl, rfl⟩ .nil .nil
  exact .node _ _ _ (by decide : 2 ≤ 5) (.node _ _ _ rfl .nil (hblock .nil
    (.node _ _ _ rfl .nil (hblock hseven (hblock .nil .nil))))) .nil

end Sample

/-- Control skips the first body and goes through the second, which leaves its value in a register
    or takes it off the stack again. -/
theorem chain_first_true_second :
    (∃ c s' ctx', Ends (Arm64.stmt .linux (.node { kind := .cond } Sample.choice)) {}
        (Sample.inside "arm64") c s' ctx' ∧
      ∀ (w : Arm64.World Unit) (post : Arm64.Code) (m : Arm64.Machine × Unit),
        (Arm64.labels (c ++ post)).Nodup →
        ∃ m', Reaches (Arm64.next? w (c ++ post)) (c ++ post, m) (post, m') ∧ m'.1.x 0 = 7) ∧
    ∃ c s' ctx', Ends (Wasm.stmt 0 (.node { kind := .cond } Sample.choice)) {}
        (Sample.inside "wasm") c s' ctx' ∧
      ∀ (w : Wasm.World Unit) m, Wasm.Falls w c m m := by
  have hin (target : Bytes) : (Sample.inside target).Inside false := ⟨⟨[], _, rfl⟩, _, rfl, rfl⟩
  constructor
  · rcases (chain_first_true .linux 0 rfl Sample.formed_choice (hin "arm64")).1 {} with
      ⟨c, s', ctx', cs, hends, hparts, hrun⟩
    refine ⟨c, s', ctx', hends, fun w post m hlabels => ?_⟩
    -- The last of three constants is the one of the second body.
    let put (v : Int) (r : Arm64.Machine × Unit) := (r.1.set Arm64.x0 (BitVec.ofInt 64 v), r.2)
    have hput (v : Int) (r : Arm64.Machine × Unit) :
        Arm64.Falls w (c ++ post) [.instr (.movImm Arm64.x0 v)] r (put v r) :=
      fun _ _ _ => .single rfl
    refine ⟨put 7 (put 1 (put 0 m)), hrun Unit w _ [] post m _ rfl hlabels ?_, rfl⟩
    cases hparts with | link hfalse _ hrest =>
    cases hrest with | link htrue hbody _ =>
    rcases hfalse with ⟨s, ctx, rep, s1, ctx1, hfalse⟩
    rcases htrue with ⟨s2, ctx2, rep2, s3, ctx3, htrue⟩
    rcases hbody with ⟨s4, ctx4, s5, ctx5, hbody⟩
    have hzero : Ends (Arm64.expr .linux (.node { kind := .boolean } [])) s ctx
      ([.instr (.movImm Arm64.x0 0)], .scalar) s ctx := rfl
    have hone : Ends (Arm64.expr .linux (.node { kind := .boolean, boolean := true } [])) s2 ctx2
      ([.instr (.movImm Arm64.x0 1)], .scalar) s2 ctx2 := rfl
    have hseven : Ends (Arm64.stmt .linux (.node { kind := .block }
      [.node { kind := .integer, integer := 7 } []])) s4 ctx4
      [.instr (.movImm Arm64.x0 7)] s4 ctx4 := rfl
    obtain rfl := congrArg Prod.fst (hfalse.unique hzero).1
    obtain rfl := congrArg Prod.fst (htrue.unique hone).1
    obtain rfl := (hbody.unique hseven).1
    exact .skipped ⟨hput 0 m, rfl⟩ (.taken ⟨hput 1 _, rfl⟩ (hput 7 _))
  · rcases (chain_first_true .linux 0 rfl Sample.formed_choice (hin "wasm")).2 {} with
      ⟨c, s', ctx', cs, hends, hparts, hrun⟩
    refine ⟨c, s', ctx', hends, fun w m => hrun Unit w m m ?_⟩
    cases hparts with | link hfalse _ hrest =>
    cases hrest with | link htrue hbody _ =>
    rcases hfalse with ⟨s, ctx, rep, s1, ctx1, hfalse⟩
    rcases htrue with ⟨s2, ctx2, rep2, s3, ctx3, htrue⟩
    rcases hbody with ⟨s4, ctx4, s5, ctx5, hbody⟩
    have hzero : Ends (Wasm.value 0 (.node { kind := .boolean } [])) s ctx
      ([.const 0], .scalar) s ctx := rfl
    have hone : Ends (Wasm.value 0 (.node { kind := .boolean, boolean := true } [])) s2 ctx2
      ([.const 1], .scalar) s2 ctx2 := rfl
    have hseven : Ends (Wasm.stmt 0 (.node { kind := .block }
      [.node { kind := .integer, integer := 7 } []])) s4 ctx4 [.const 7, .drop] s4 ctx4 := rfl
    obtain rfl := congrArg Prod.fst (hfalse.unique hzero).1
    obtain rfl := congrArg Prod.fst (htrue.unique hone).1
    obtain rfl := (hbody.unique hseven).1
    exact .skipped ⟨0, fun rest bs => .single rfl, rfl⟩
      (.taken ⟨1, fun rest bs => .single rfl, rfl⟩ fun rest bs => .head rfl (.single rfl))

namespace Sample

/-- A loop between two numbers, with a constant for its body. -/
def turning (first last : Int64) : Term :=
  .node { kind := .forRange, name := "i" }
    [.node { kind := .integer, integer := first } [],
      .node { kind := .integer, integer := last } [],
      .node { kind := .integer, integer := 7 } []]

/-- The states that a machine gets to in so many steps. -/
def trace {α : Type} (next : α → Option α) : Nat → α → List α
  | 0, _ => []
  | steps + 1, a => a :: ((next a).map (trace next steps)).getD []

/-- The numbers in the first slot of the frame where the constant is about to be loaded. -/
def arm64Turns (steps : Nat) (c : Arm64.Code) : List Int64 :=
  let start : Arm64.Machine := ⟨fun _ => 64, 64, ⟨false, false, false, false⟩, fun _ => 0⟩
  let w : Arm64.World Unit := ⟨fun _ => 0, fun _ s => s⟩
  (trace (Arm64.next? w c) steps (c, start, ())).filterMap fun s =>
    if s.1.head? = some (.instr (.movImm Arm64.x0 7)) then some ⟨⟨s.2.1.mem.word 56⟩⟩ else none

/-- The numbers in the first local where the constant is about to be put on the stack. -/
def wasmTurns (steps : Nat) (c : Wasm.Code) : List Int64 :=
  let start : Wasm.Machine := ⟨[], fun _ => 0, fun _ => 0⟩
  let w : Wasm.World Unit := fun _ s => some s
  (trace (Wasm.next? w) steps (c, [], start, ())).filterMap fun
    | (.const 7 :: _, _, m, _) => some (m.locals 0)
    | _ => none

end Sample

/-- A loop over the greatest integer alone, which no counter exceeds, goes on with the least. -/
theorem loop_past_greatest :
    let loop := Sample.turning .maxValue .maxValue
    ((((Arm64.stmt .linux loop).run {}).run (Sample.inside "arm64")).toOption.map fun r =>
      Sample.arm64Turns 32 r.1.1) = some [.maxValue, .minValue] ∧
    ((((Wasm.stmt 9 loop).run {}).run (Sample.inside "wasm")).toOption.map fun r =>
      Sample.wasmTurns 32 r.1.1) = some [.maxValue, .minValue] := by
  decide +kernel

end Codegen
