import Codegen.Proofs.Arm64.Generation

/-!
# Branches in AArch64 Code

Labels are numbers, handed out by counting. A statement takes the next few, its parts take what
follows, and each label is written once, so the labels in the code of a statement are exactly
those that were handed out while it was lowered. No two statements share one, and no label is
written in one function and missed in another.

Where the branches go is read off the shape of the code. `Steers` says it for all statements:
a loop sets new targets for its body, everything else passes on the targets that it is given,
and `break` and `continue` branch to them. From the shape it follows that a branch either goes to
a label of the same code, or to one of the few that the code around it was promised to write.
-/

namespace Codegen.Arm64

open List

variable {ret : Label} {fn : FunctionState} {symbol : Bytes} {st : Stage} {words : Nat}

/-- The labels handed out between two counts. -/
def minted (first next : Nat) : List Label := (range' first (next - first)).map Label.mk

theorem minted_self (n : Nat) : minted n n = [] := by
  unfold minted
  rw [Nat.sub_self]
  rfl

theorem perm_minted {c : Code} {first next : Nat} (hlabels : labels c = []) (h : next = first) :
    (labels c).Perm (minted first next) := by
  rw [hlabels, h, minted_self]

theorem minted_cons {first next : Nat} (h : first < next) :
    minted first next = ⟨first⟩ :: minted (first + 1) next := by
  unfold minted
  rw [show next - first = next - (first + 1) + 1 by omega]
  rfl

theorem minted_append {first middle next : Nat} (h : first ≤ middle) (h' : middle ≤ next) :
    minted first middle ++ minted middle next = minted first next := by
  unfold minted
  rw [← map_append, show next - first = (middle - first) + (next - middle) by omega,
    ← range'_append_1, show first + (middle - first) = middle by omega]

section Taken

variable {first n m k : Nat} {ls ls' : List Label}

theorem perm_minted_last (hfirst : first = n + 1) (h : ls.Perm (minted first m))
    (hle : first ≤ m) : (ls ++ [Label.mk n]).Perm (minted n m) := by
  subst hfirst
  rw [minted_cons hle]
  exact (perm_append_singleton _ _).trans (h.cons _)

theorem perm_minted_pair (hfirst : first = n + 2) (h : ls.Perm (minted first m))
    (hle : first ≤ m) : ([Label.mk n] ++ ls ++ [Label.mk (n + 1)]).Perm (minted n m) := by
  subst hfirst
  rw [minted_cons (show n < m by omega), minted_cons (show n + 1 < m by omega)]
  exact ((perm_append_singleton _ _).trans (h.cons _)).cons _

theorem perm_minted_triple (hfirst : first = n + 3) (h : ls.Perm (minted first m))
    (hle : first ≤ m) :
    ([Label.mk n] ++ ls ++ [Label.mk (n + 1), Label.mk (n + 2)]).Perm (minted n m) := by
  subst hfirst
  rw [minted_cons (show n < m by omega), minted_cons (show n + 1 < m by omega),
    minted_cons (show n + 2 < m by omega)]
  exact (perm_append_comm.trans (List.Perm.append_left [_, _] h)).cons _

theorem perm_minted_between (hfirst : first = n + 1) (h : ls.Perm (minted first k))
    (h' : ls'.Perm (minted k m)) (hle : first ≤ k) (hle' : k ≤ m) :
    (ls ++ [Label.mk n] ++ ls').Perm (minted n m) := by
  subst hfirst
  rw [minted_cons (show n < m by omega), ← minted_append hle hle']
  exact ((perm_append_singleton _ _).append_right _).trans ((h.append h').cons _)

end Taken

section Fragments

variable (a b c : Code) (start step done next join : Label)

theorem labels_whileCode :
    labels (whileCode start done c b) = [start] ++ labels c ++ labels b ++ [done] := by
  unfold labels
  rw [marks_whileCode]
  simp [filterMap_cons, Mark.label?]

theorem targets_whileCode :
    targets (whileCode start done c b) = targets c ++ [done] ++ targets b ++ [start] := by
  unfold targets
  rw [marks_whileCode]
  simp [filterMap_cons, Mark.target?]

theorem labels_forCode (counter limit : Nat) :
    labels (forCode counter limit start step done a b c) =
      labels a ++ labels b ++ [start] ++ labels c ++ [step, done] := by
  unfold labels
  rw [marks_forCode]
  simp [filterMap_cons, Mark.label?]

theorem targets_forCode (counter limit : Nat) :
    targets (forCode counter limit start step done a b c) =
      targets a ++ targets b ++ [done] ++ targets c ++ [start] := by
  unfold targets
  rw [marks_forCode]
  simp [filterMap_cons, Mark.target?]

end Fragments

theorem Unbranched.callMain (userMain : Option Symbol) : Unbranched (callMain userMain) := by
  intro m hm
  cases userMain with
  | none => cases hm
  | some sym => exact ⟨sym.storage, mem_singleton.mp hm⟩

variable (ret : Label) in
/-- Where the branches in the code of statements go: a return to `ret`, a `break` and a
    `continue` to the targets that are given. Only a loop changes these, for its body: to the
    label behind it, and to the one before its condition or before its step. -/
inductive Steers : Option LoopTargets → Task → Code → Prop where
  | plain {loop stmt c} (hstmt : stmt.isPlain = true) (h : Unbranched c) :
      Steers loop (.stmt stmt) c
  | ret {loop value c} (h : Unbranched c) :
      Steers loop (.stmt (.ret value)) (c ++ code [.branch ret])
  | jump {targets kind} :
      Steers (some targets) (.stmt (.jump kind))
        (code [.branch (if kind = .brk then targets.brk else targets.cont)])
  | outside {kind text} : Steers none (.stmt (.jump kind)) [.comment text]
  | block {loop body c} (h : Steers loop (.stmts body) c) :
      Steers loop (.stmt (.block body)) c
  | cond {loop parts join c} (h : Steers loop (.chain join parts) c) :
      Steers loop (.stmt (.cond parts)) (c ++ [.label join])
  | whileLoop {loop condition body stmt start done c b} (hcondition : Unbranched c)
      (hstmt : body.stmt? = some stmt) (h : Steers (some ⟨done, start⟩) (.stmt stmt) b) :
      Steers loop (.stmt (.whileLoop condition body)) (whileCode start done c b)
  | forRange {loop name first last body stmt counter limit start step done a b c}
      (hfirst : Unbranched a) (hlast : Unbranched b) (hstmt : body.stmt? = some stmt)
      (h : Steers (some ⟨done, step⟩) (.stmt stmt) c) :
      Steers loop (.stmt (.forRange name first last body))
        (forCode counter limit start step done a b c)
  | nil {loop} : Steers loop (.stmts []) []
  | cons {loop t ts stmt c cs} (hstmt : t.stmt? = some stmt) (h : Steers loop (.stmt stmt) c)
      (hrest : Steers loop (.stmts ts) cs) : Steers loop (.stmts (t :: ts)) (c ++ cs)
  | chainNil {loop join} : Steers loop (.chain join []) []
  | chainLast {loop join body stmt c} (hstmt : body.stmt? = some stmt)
      (h : Steers loop (.stmt stmt) c) : Steers loop (.chain join [body]) c
  | chainLink {loop join condition body rest stmt next c b cs} (hcondition : Unbranched c)
      (hstmt : body.stmt? = some stmt) (h : Steers loop (.stmt stmt) b)
      (hrest : Steers loop (.chain join rest) cs) :
      Steers loop (.chain join (condition :: body :: rest))
        (c ++ code [.cbz x0 next] ++ b ++ code [.branch join] ++ [.label next] ++ cs)

/-- Where code may branch to that does not write the label itself. -/
def leaving (ret : Label) (loop : Option LoopTargets) : Task → List Label
  | .chain join _ => join :: ret :: loop.elim [] fun targets => [targets.brk, targets.cont]
  | _ => ret :: loop.elim [] fun targets => [targets.brk, targets.cont]

section Statements

variable {flavor : Flavor} {task : Task} {st' : Stage} {c : Code} {steps : List Step}
  {loop : Option LoopTargets}

/-- Code is steered by the targets that its context has. -/
theorem Executes.steers (h : Executes flavor task st c steps st') (hfn : st.2.function = some fn) :
    Steers fn.ret fn.loop task c := by
  induction h generalizing fn with
  | expression h | assign h => exact .plain rfl h.unbranched
  | block _ _ ih => exact .block (ih hfn)
  | declare _ h => exact .plain rfl (h.unbranched.append (.store _))
  | declareZero => exact .plain rfl ((Unbranched.of_marks (marks_zero _)).append (.store _))
  | cond _ _ ih => exact .cond (ih hfn)
  | whileLoop _ _ htest hfn1 hstmt _ _ ih =>
    cases hfn1.symm.trans (htest.kept.function.trans hfn)
    exact .whileLoop htest.unbranched hstmt (ih rfl)
  | forRange hfn0 hfirst hlast _ hctx3 _ _ _ hfn3 hstmt _ _ _ ih =>
    -- The function has two slots more by then, and is otherwise the same.
    cases hfn0.symm.trans hfn
    have hkept := hlast.kept.function.trans hfirst.kept.function
    rw [hctx3, Context.function_declareHere, hkept] at hfn3
    cases hfn3
    exact .forRange hfirst.unbranched hlast.unbranched hstmt (ih rfl)
  | ret h hfn1 =>
    cases hfn1.symm.trans (h.kept.function.trans hfn)
    exact .ret h.unbranched
  | retZero hfn1 =>
    cases hfn1.symm.trans hfn
    exact .ret (.of_marks (marks_zero _))
  | jump hloop =>
    rw [(Context.loopTargets?_eq hfn).symm.trans hloop]
    exact .jump
  | jumpOutside hloop =>
    rw [(Context.loopTargets?_eq hfn).symm.trans hloop]
    exact .outside
  | classDecl | refused => exact .plain rfl (.of_marks rfl)
  | nil => exact .nil
  | cons hstmt h _ ih1 ih2 =>
    rcases h.advances.function hfn with ⟨n, -, hfn1⟩
    have hrest := ih2 hfn1
    exact .cons hstmt (ih1 hfn) hrest
  | chainNil => exact .chainNil
  | chainLast hstmt _ ih => exact .chainLast hstmt (ih hfn)
  | chainLink _ htest hstmt h _ ih1 ih2 =>
    have hfn1 := htest.kept.function.trans hfn
    rcases h.advances.function hfn1 with ⟨n, -, hfn2⟩
    have hrest := ih2 hfn2
    exact .chainLink htest.unbranched hstmt (ih1 hfn1) hrest

/-- Code of statements has the labels that were handed out for it, each of them once. -/
theorem Executes.minted (h : Executes flavor task st c steps st') :
    (labels c).Perm (minted st.2.labels st'.2.labels) := by
  induction h with
  | expression h | assign h => exact perm_minted h.unbranched.labels h.kept.labels
  | block _ _ ih => exact ih
  | declare _ h =>
    exact perm_minted (h.unbranched.append (.store _)).labels
      ((Context.labels_declaring _ _ _ _).trans h.kept.labels)
  | declareZero =>
    exact perm_minted ((Unbranched.of_marks (marks_zero _)).append (.store _)).labels
      (Context.labels_declaring _ _ _ _)
  | cond hjoin h ih =>
    rw [labels_append, hjoin]
    exact perm_minted_last rfl ih h.advances.labels
  | whileLoop hstart hdone htest _ _ h _ ih =>
    rw [labels_whileCode, htest.unbranched.labels, hstart, hdone]
    exact perm_minted_pair htest.kept.labels ih h.advances.labels
  | forRange _ hfirst hlast _ hctx3 hstart hstep hdone _ _ h _ _ ih =>
    have hkept := (hfirst.kept.trans hlast.kept).labels
    have hsame := ((congrArg Context.labels hctx3).trans (Context.labels_declareHere _ _)).trans hkept
    rw [labels_forCode, hfirst.unbranched.labels, hlast.unbranched.labels,
      hstart, hstep, hdone]
    exact (perm_minted_triple rfl ih h.advances.labels).trans
      (.of_eq (congrArg (Arm64.minted · _) hsame))
  | ret h =>
    refine perm_minted ?_ h.kept.labels
    rw [labels_append, h.unbranched.labels]
    rfl
  | retZero =>
    refine perm_minted ?_ rfl
    rw [labels_append, (Unbranched.of_marks (marks_zero _)).labels]
    rfl
  | jump | jumpOutside | refused | nil | chainNil => exact perm_minted rfl rfl
  | classDecl => exact perm_minted rfl (Context.labels_declareHere _ _)
  | cons _ h hrest ih1 ih2 =>
    rw [labels_append, ← minted_append h.advances.labels hrest.advances.labels]
    exact ih1.append ih2
  | chainLast _ _ ih => exact ih
  | chainLink hnext htest _ h hrest ih1 ih2 =>
    have hbranch (l : Label) : labels (code [.branch l]) = [] := rfl
    simp only [labels_append, htest.unbranched.labels, hbranch, append_nil]
    rw [hnext]
    exact perm_minted_between htest.kept.labels ih1 ih2 h.advances.labels
      hrest.advances.labels

/-- Branches go to labels of the code or leave as they may. -/
theorem Steers.targets_subset (h : Steers ret loop task c) :
    targets c ⊆ labels c ++ leaving ret loop task := by
  have hjump (l : Label) : targets (code [.branch l]) = [l] := rfl
  have hcbz (l : Label) : targets (code [.cbz x0 l]) = [l] := rfl
  have hlabel (l : Label) : targets [.label l] = [] := rfl
  have hlabels (l : Label) : labels [.label l] = [l] := rfl
  induction h with
  | plain _ h =>
    rw [h.targets]
    exact nil_subset _
  | ret h =>
    rw [targets_append, h.targets, hjump]
    simp [leaving]
  | @jump _ kind =>
    rw [hjump]
    by_cases hkind : kind = .brk <;> simp [hkind, leaving]
  | outside | nil | chainNil => exact nil_subset _
  | block _ ih => exact ih
  | cond _ ih =>
    intro l hl
    simp only [targets_append, hlabel, append_nil] at hl
    have hl := ih hl
    simp only [labels_append, leaving] at hl ⊢
    grind
  -- A loop defines the labels that its body leaves it by.
  | whileLoop htest _ _ ih =>
    intro l hl
    simp only [targets_whileCode, labels_whileCode, htest.targets, leaving, Option.elim,
      mem_append] at hl ih ⊢
    grind
  | forRange hfirst hlast _ _ ih =>
    intro l hl
    simp only [targets_forCode, labels_forCode, hfirst.targets, hlast.targets, leaving,
      Option.elim, mem_append] at hl ih ⊢
    grind
  | cons _ _ _ ih1 ih2 =>
    intro l hl
    simp only [targets_append, labels_append, leaving] at hl ih1 ih2 ⊢
    grind
  | chainLast _ _ ih =>
    exact fun l hl => (mem_append.mp (ih hl)).elim (mem_append_left _)
      fun hl => mem_append_right _ (mem_cons_of_mem _ hl)
  | chainLink htest _ _ _ ih1 ih2 =>
    intro l hl
    simp only [targets_append, labels_append, htest.targets, leaving, mem_append] at hl ih1 ih2 ⊢
    grind

theorem Steers.begun (h : Steers ret loop task c) : begun c = [] := by
  induction h with
  | plain _ h => exact h.begun
  | ret h =>
    rw [begun_append, h.begun]
    rfl
  | jump | outside | nil | chainNil => rfl
  | block _ ih | chainLast _ _ ih => exact ih
  | cond _ ih =>
    rw [begun_append, ih]
    rfl
  | whileLoop htest _ _ ih =>
    have htest := htest.begun
    unfold Arm64.begun at *
    simp [marks_whileCode, htest, ih, filterMap_cons, Mark.begun?]
  | forRange hfirst hlast _ _ ih =>
    have hfirst := hfirst.begun
    have hlast := hlast.begun
    unfold Arm64.begun at *
    simp [marks_forCode, hfirst, hlast, ih, filterMap_cons, Mark.begun?]
  | cons _ _ _ ih1 ih2 => rw [begun_append, ih1, ih2, append_nil]
  | chainLink htest _ _ _ ih1 ih2 =>
    simp only [begun_append, htest.begun, ih1, ih2]
    rfl

end Statements

/-- The code of a function with these statements: one routine, with all its branches inside. -/
structure Routed (ts : List Term) (c : Code) : Prop where
  single : ∃ symbol rest, c = .routine symbol true :: rest ∧ begun rest = []
  closed : targets c ⊆ labels c
  steered : ∃ ret before body after, c = before ++ body ++ after ∧ labels before = [] ∧
    labels after = [ret] ∧ Steers ret none (.stmts ts) body

theorem routed_of_steers {params body rest : Code} {ts : List Term} (hparams : Unbranched params)
    (hrest : Unbranched rest) (h : Steers ret none (.stmts ts) body) :
    Routed ts (prologue symbol words ++ params ++ body ++ (rest ++ epilogue ret)) := by
  have hframe : Unbranched (openFrame ++ reserveFrame (frameSize words)) :=
    Unbranched.append (.of_marks rfl) (.of_marks (marks_reserveFrame _))
  have hprologue : labels (prologue symbol words) = [] ∧ targets (prologue symbol words) = [] := by
    unfold labels targets
    rw [marks_prologue]
    exact ⟨rfl, rfl⟩
  have hlabels : labels (rest ++ epilogue ret) = [ret] := by
    rw [labels_append, hrest.labels]
    rfl
  refine ⟨⟨symbol, (openFrame ++ reserveFrame (frameSize words)) ++ params ++ body
    ++ (rest ++ epilogue ret), ?_, ?_⟩, ?_, ⟨ret, prologue symbol words ++ params, body,
    rest ++ epilogue ret, rfl, ?_, hlabels, h⟩⟩
  · rfl
  · simp only [begun_append, hframe.begun, hparams.begun, h.begun, hrest.begun]
    rfl
  · -- The only label that the body leaves to others is that of the end of the function.
    intro l hl
    simp only [targets_append, hprologue.2, hparams.targets, hrest.targets, nil_append,
      mem_append] at hl
    rw [labels_append, labels_append, hlabels]
    rcases hl with hl | hl
    · have hout := h.targets_subset hl
      simp only [mem_append] at hout ⊢
      rcases hout with hout | hout
      · exact Or.inl (Or.inr hout)
      · exact Or.inr hout
    · cases hl
  · rw [labels_append, hprologue.1, hparams.labels, nil_append]

/-- Between two stages, functions with these statements were added, and all labels that were
    handed out are in their code. -/
structure Emits (st : Stage) (tss : List (List Term)) (cs : List Code) (st' : Stage) : Prop where
  routed : Forall₂ Routed tss cs
  code : st'.1.code = st.1.code ++ cs.flatten
  ordered : st.2.labels ≤ st'.2.labels
  minted : (labels cs.flatten).Perm (minted st.2.labels st'.2.labels)

theorem Emits.nil (st : Stage) : Emits st [] [] st where
  routed := .nil
  code := (append_nil _).symm
  ordered := Nat.le_refl _
  minted := perm_minted rfl rfl

theorem Emits.append {st1 st2 : Stage} {tss tss' : List (List Term)} {cs cs' : List Code}
    (h : Emits st tss cs st1) (h' : Emits st1 tss' cs' st2) :
    Emits st (tss ++ tss') (cs ++ cs') st2 where
  routed := rel_append h.routed h'.routed
  code := by rw [h'.code, h.code, flatten_append, append_assoc]
  ordered := Nat.le_trans h.ordered h'.ordered
  minted := by
    rw [flatten_append, labels_append, ← minted_append h.ordered h'.ordered]
    exact h.minted.append h'.minted

theorem emits_of_steers {st' : Stage} {first : Nat} {params body rest c : Code} {ts : List Term}
    (hparams : Unbranched params) (hrest : Unbranched rest)
    (hsteers : Steers ret none (.stmts ts) body) (hret : ret = ⟨st.2.labels⟩)
    (hfirst : first = st.2.labels + 1) (hminted : (labels body).Perm (minted first st'.2.labels))
    (hle : first ≤ st'.2.labels)
    (hc : c = prologue symbol words ++ params ++ body ++ (rest ++ epilogue ret))
    (hcode : st'.1.code = st.1.code ++ c) : Emits st [ts] [c] st' where
  routed := .cons (hc ▸ routed_of_steers hparams hrest hsteers) .nil
  code := by rw [flatten_singleton, hcode]
  ordered := by omega
  minted := by
    have hprologue : labels (prologue symbol words) = [] := by
      unfold labels
      rw [marks_prologue]
      rfl
    rw [flatten_singleton, hc]
    simp only [labels_append, hprologue, hparams.labels, hrest.labels]
    rw [hret]
    exact perm_minted_last hfirst hminted hle

section Programs

variable {flavor : Flavor} {st' : Stage} {frame : Frame} {c : Code} {ts : List Tree}
  {fs : List (Frame × Code)} {userMain : Option Symbol} {steps : List Step} {root : Tree}

theorem Enters.steers (h : Enters flavor ts st c steps st') (hfn : st.2.function = some fn) :
    Steers fn.ret fn.loop (.stmts ((ts.filter Tree.isEntered).map Term.ofTree)) c := by
  induction h generalizing fn with
  | nil => exact .nil
  | declared hkind _ ih =>
    rw [filter_cons_of_neg (by rcases hkind with hkind | hkind <;>
      simp [Tree.isEntered, hkind])]
    exact ih hfn
  | varInit hkind _ h _ ih =>
    rw [filter_cons_of_pos (by simp [Tree.isEntered, hkind])]
    exact .cons (Term.stmt?_varDecl hkind _)
      (.plain rfl (h.unbranched.append (.store _))) (ih (h.kept.function.trans hfn))
  | varZero hkind _ _ ih =>
    rw [filter_cons_of_pos (by simp [Tree.isEntered, hkind])]
    exact .cons (Term.stmt?_varDecl hkind _)
      (.plain rfl ((Unbranched.of_marks (marks_zero _)).append (.store _))) (ih hfn)
  | stmt hkind hstmt h _ ih =>
    rw [filter_cons_of_pos (Tree.isEntered_of_not_declaration hkind _)]
    rcases h.advances.function hfn with ⟨n, -, hfn1⟩
    have hrest := ih hfn1
    exact .cons hstmt (h.steers hfn) hrest

/-- The same for the statements of the entry. -/
theorem Enters.minted (h : Enters flavor ts st c steps st') :
    (labels c).Perm (minted st.2.labels st'.2.labels) := by
  induction h with
  | nil => exact perm_minted rfl rfl
  | declared _ _ ih => exact ih
  | varInit _ _ h _ ih =>
    rw [labels_append, (h.unbranched.append (.store _)).labels, ← h.kept.labels]
    exact ih
  | varZero _ _ _ ih =>
    rw [labels_append, ((Unbranched.of_marks (marks_zero _)).append (.store _)).labels]
    exact ih
  | stmt _ _ h hrest ih =>
    rw [labels_append, ← minted_append h.advances.labels hrest.advances.labels]
    exact h.minted.append ih

theorem Defines.emits {p : Payload} {body : Tree} (h : Defines flavor p body st frame c st') :
    Emits st [[.ofTree body]] [c] st' := by
  cases h with
  | @mk _ ctx _ _ _ _ _ _ _ _ _ _ _ _ _ _ _ _ hbinds hparams hstmt hbody hfn _ _ hwhole =>
    have hbegun : (ctx.beginning p.name p.result).function = some _ := rfl
    rcases hbinds.advances.function hbegun with ⟨n, -, hfn1⟩
    rcases hbody.advances.function hfn1 with ⟨m, -, hfn2⟩
    cases hfn.symm.trans hfn2
    have hsteers := Steers.cons hstmt (hbody.steers hfn1) .nil
    rw [append_nil] at hsteers
    refine emits_of_steers (.of_marks hparams) (.of_marks (marks_zero _)) hsteers rfl
      hbinds.rest.1 hbody.minted hbody.advances.labels hwhole ?_
    exact congrArg (· ++ _) hbody.changes.grows.code

theorem Functions.emits (h : Functions flavor ts st fs st') :
    Emits st ((ts.filterMap Tree.functionBody?).map fun body => [body]) (fs.map Prod.snd) st' := by
  induction h with
  | nil => exact .nil _
  | function hkind hdefines _ ih =>
    rw [filterMap_cons_some (by rw [Tree.functionBody?, if_pos hkind])]
    exact hdefines.emits.append ih
  | @other _ ts _ _ _ _ hkind _ ih =>
    rw [filterMap_cons_none (Tree.functionBody?_of_ne hkind ts)]
    exact ih

theorem Entry.emits (h : Entry flavor root userMain st frame c st') :
    Emits st [(root.statements.filter Tree.isEntered).map Term.ofTree] [c] st' := by
  cases h with
  | @mk _ ctx words b _ _ _ _ _ _ _ _ hbody hfn _ _ hwhole =>
    have hbegun : (ctx.beginning "main" .integer).function = some _ := rfl
    rcases hbody.advances.function hbegun with ⟨n, -, hfn1⟩
    cases hfn.symm.trans hfn1
    have hrest : Unbranched (callMain userMain ++ zero .scalar) :=
      Unbranched.append (.callMain userMain) (.of_marks (marks_zero _))
    have hshape : c = prologue "main" words ++ [] ++ b
        ++ ((callMain userMain ++ zero .scalar) ++ epilogue ⟨ctx.labels⟩) := by
      rw [hwhole]
      simp
    exact emits_of_steers (.of_marks marks_nil) hrest (hbody.steers hbegun) rfl rfl hbody.minted
      hbody.advances.labels hshape (congrArg (· ++ _) hbody.changes.grows.code)

theorem Introduces.before (h : Introduces ts st userMain st') :
    st'.1.code = st.1.code ∧ st'.1.helpers = st.1.helpers ∧ st'.2.labels = st.2.labels := by
  induction h with
  | nil => exact ⟨rfl, rfl, rfl⟩
  | function _ _ ih | varDecl _ _ _ ih | other _ _ ih => exact ih
  | classDecl _ _ ih => exact ⟨ih.1, ih.2.1, ih.2.2.trans (Context.labels_declareHere _ _)⟩

theorem Supplies.helpers {strings : List (Bytes × Bytes)} (h : Supplies strings st st') :
    st'.1.helpers = st.1.helpers := by
  induction h with
  | nil => rfl
  | old _ _ ih | new _ _ ih => exact ih

theorem unbranched_routine (printer : Printer) (flavor : Flavor) :
    labels (printer.routine flavor) = [] ∧ targets (printer.routine flavor) = [] := by
  cases printer <;> cases flavor <;> exact ⟨rfl, rfl⟩

theorem invariant_helpers (flavor : Flavor) :
    Invariant flavor fun st => labels st.1.helpers = [] ∧ targets st.1.helpers = [] where
  touches h hst := by
    cases h with
    | context | literal | array => exact hst
    | helper h =>
      cases h with
      | old => exact hst
      | new _ hstrings =>
        dsimp only [Output.withHelper]
        obtain ⟨hlabels, htargets⟩ := unbranched_routine _ flavor
        rw [labels_append, targets_append, hlabels, htargets, hstrings.helpers]
        exact ⟨(append_nil _).trans hst.1, (append_nil _).trans hst.2⟩
  withCode _ hst := hst

/-- The labels of a program are those that were handed out, each of them once; helpers have none,
    and every function has all that it branches to. -/
theorem Generates.branches (h : Generates flavor root fs st) :
    st.1.code = (fs.map Prod.snd).flatten ∧ (labels st.1.code).Perm (minted 0 st.2.labels) ∧
      labels st.1.helpers = [] ∧ targets st.1.helpers = [] ∧
      Forall₂ Routed root.routines (fs.map Prod.snd) := by
  cases h with
  | mk hintroduced hfunctions hentry =>
    obtain ⟨hcode, hhelpers, hlabels⟩ := hintroduced.before
    have hemits := hfunctions.emits.append hentry.emits
    have hminted := hemits.minted
    rw [hlabels] at hminted
    have hkept := (invariant_helpers flavor).entry hentry
      ((invariant_helpers flavor).functions hfunctions (by rw [hhelpers]; exact ⟨rfl, rfl⟩))
    have hwhole : st.1.code = _ := hemits.code
    rw [hcode] at hwhole
    rw [hwhole, map_append]
    exact ⟨rfl, hminted, hkept.1, hkept.2, hemits.routed⟩

end Programs

end Codegen.Arm64
