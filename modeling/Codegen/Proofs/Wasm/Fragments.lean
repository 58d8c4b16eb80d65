import Codegen.Proofs.Wasm.Effects
import Codegen.Proofs.Wasm.Validation

/-!
# The Cells of Code Fragments

The code of an expression may refer to what names stand for, to the scratch cell, to the
functions that print and to the helper for truth values. It has its type in every setting
that has those.

Which setting that is comes out only at the end: locals are counted when the function is
complete, and the helper may be added much later. So a setting is asked for the helpers that
have been claimed by the end of the code, and one that has the helpers of a later point has
those of every earlier one.
-/

namespace Codegen.Wasm

variable {sym : Symbol}

namespace Setting

/-- The cells of a variable are there, and a function has its type. -/
def Holds (g : Setting) (sym : Symbol) : Prop :=
  match sym.kind, sym.global with
  | .variable, true =>
    sym.storage ∈ g.globals ∧ (sym.type.rep = .fat → lengthCell sym.storage ∈ g.globals)
  | .variable, false => sym.slot.toNat + sym.type.rep.words ≤ g.locals
  | .function, _ =>
    g.signature? sym.storage =
      some ⟨List.replicate (paramCells sym.params) .i64, resultCells sym.result.hasResult⟩
  | .classType, _ => True

/-- All names have their places. -/
def Hosts (g : Setting) (k : Context) : Prop := ∀ name sym, k.lookup? name = some sym → g.Holds sym

/-- The scratch cell, the functions that print and the helper, if it was claimed, are there. -/
structure Serves (g : Setting) (scratch : Nat) (claimed : List Bytes) : Prop where
  scratch : scratch < g.locals
  integers : g.signature? printIntegerName = some ⟨[.i64], []⟩
  texts : g.signature? printTextName = some ⟨[.i32, .i32], []⟩
  truths : printBoolName ∈ claimed → g.signature? printBoolName = some ⟨[.i64], []⟩

variable {g : Setting} {scratch : Nat} {k k' : Context} {claimed claimed' : List Bytes}
  {name : Bytes}

theorem Serves.earlier (h : g.Serves scratch claimed') (hsub : claimed ⊆ claimed') :
    g.Serves scratch claimed :=
  ⟨h.scratch, h.integers, h.texts, fun hclaimed => h.truths (hsub hclaimed)⟩

theorem Hosts.congr (h : g.Hosts k) (hscopes : k'.scopes = k.scopes)
    (hglobals : k'.globals = k.globals) : g.Hosts k' := by
  unfold Hosts Context.lookup?
  rw [hscopes, hglobals]
  exact h

theorem Hosts.declareHere (h : g.Hosts k) (hsym : g.Holds sym) : g.Hosts (k.declareHere sym) := by
  intro name found hfound
  rw [Context.lookup?_declareHere] at hfound
  cases heq : sym.name == name with rw [heq] at hfound
  | true => exact Option.some.inj hfound ▸ hsym
  | false => exact h name found hfound

theorem Hosts.varNamed? (h : g.Hosts k) (hsym : k.varNamed? name = some sym) :
    sym.kind = .variable ∧ g.Holds sym := by
  obtain ⟨hlookup, hkind⟩ := Option.filter_eq_some_iff.mp hsym
  exact ⟨eq_of_beq hkind, h name sym hlookup⟩

theorem Hosts.funcNamed? (h : g.Hosts k) (hsym : k.funcNamed? name = some sym) :
    g.signature? sym.storage =
      some ⟨List.replicate (paramCells sym.params) .i64, resultCells sym.result.hasResult⟩ := by
  obtain ⟨hlookup, hkind⟩ := Option.filter_eq_some_iff.mp hsym
  have hholds := h name sym hlookup
  unfold Holds at hholds
  simpa [eq_of_beq hkind] using hholds

end Setting

section Fragments

variable {g : Setting} {labels : List Label} {scratch cells : Nat} {c : Code} {v : Code × Rep}
  {op : BinaryOp} {p : Payload}

abbrev words (n : Nat) : List ValType := List.replicate n .i64

theorem types_zero (rep : Rep) : Types g labels (zero rep) [] (words rep.words) := by
  cases rep <;> exact fun _ _ => rfl

theorem types_discard (n : Nat) : Types g labels (discard n) (words n) [] := by
  induction n with
  | zero => exact types_nil []
  | succ n ih =>
    intro cells live
    exact ih cells live

/-- Reading a variable leaves its cells. -/
theorem types_load (hkind : sym.kind = .variable) (h : g.Holds sym) :
    Types g labels (load sym) [] (words sym.type.rep.words) := by
  unfold Setting.Holds at h
  unfold load
  rw [hkind] at h
  cases hglobal : sym.global with simp only [hglobal] at h ⊢
  | true =>
    cases hrep : sym.type.rep with
    | fat => exact (types_globalGet h.1).append ((types_globalGet (h.2 hrep)).frame [.i64])
    | scalar => exact types_globalGet h.1
  | false =>
    cases hrep : sym.type.rep with rw [hrep, Rep.words] at h
    | fat => exact (types_localGet (by omega)).append ((types_localGet (by omega)).frame [.i64])
    | scalar => exact types_localGet (by omega)

/-- Writing a variable takes them. -/
theorem types_store (hkind : sym.kind = .variable) (h : g.Holds sym) :
    Types g labels (store sym) (words sym.type.rep.words) [] := by
  unfold Setting.Holds at h
  unfold store
  rw [hkind] at h
  cases hglobal : sym.global with simp only [hglobal] at h ⊢
  | true =>
    cases hrep : sym.type.rep with
    | fat => exact ((types_globalSet (h.2 hrep)).frame [.i64]).append (types_globalSet h.1)
    | scalar => exact types_globalSet h.1
  | false =>
    cases hrep : sym.type.rep with
    | fat =>
      -- The length is on top, so it is stored first.
      rw [hrep, Rep.words] at h
      exact ((types_localSet (by omega)).frame [.i64]).append (types_localSet (by omega))
    | scalar =>
      rw [hrep, Rep.words] at h
      exact types_localSet (by omega)

theorem types_pack (h : scratch < g.locals) :
    Types g labels (pack scratch) [.i64, .i64] [.i64] := by
  have hshift : Types g labels [.const 32, .num .shl] [.i64] [.i64] := fun _ _ => rfl
  have hmask : Types g labels [.const 4294967295, .num .and, .num .or] [.i64, .i64] [.i64] :=
    fun _ _ => rfl
  exact ((types_localSet h).frame [.i64]).append
    (hshift.append (((types_localGet h).frame [.i64]).append hmask))

/-- One cell becomes two. -/
theorem types_unpack (h : scratch < g.locals) :
    Types g labels (unpack scratch) [.i64] [.i64, .i64] := by
  have hshift : Types g labels [.const 32, .num .shrU] [.i64] [.i64] := fun _ _ => rfl
  have hmask : Types g labels [.const 4294967295, .num .and] [.i64] [.i64] := fun _ _ => rfl
  exact (types_localTee h).append
    (hshift.append (((types_localGet h).frame [.i64]).append (hmask.frame [.i64])))

theorem types_truth : Types g labels truth [.i64] [.i32] := fun _ _ => rfl

theorem types_toFloat (type : Ty) : Types g labels (toFloat type) [.i64] [.f64] := by
  unfold toFloat
  split <;> exact fun _ _ => rfl

theorem types_integerOp (h : integerOp? op = some c) : Types g labels c [.i64, .i64] [.i64] := by
  rcases op with op | op | op <;> cases h <;> cases op <;> exact fun _ _ => rfl

theorem types_decimalOp (h : decimalOp? op = some c) : Types g labels c [.f64, .f64] [.i64] := by
  rcases op with op | op | op
  · cases op with
    | rem => cases h
    | _ =>
      cases h
      exact fun _ _ => rfl
  · cases h
    cases op <;> exact fun _ _ => rfl
  · cases h

/-- A binary operator takes two values and leaves one. -/
theorem types_combination {lt rt : Ty} {f : Code → Code → Code} (hop : combination p lt rt = .ok f)
    {l r : Code} (hl : Types g labels l [] [.i64]) (hr : Types g labels r [] [.i64]) :
    Types g labels (f l r) [] [.i64] := by
  have hnumeric (op? : Option BinaryOp) (h : numericCombination p lt rt op? = .ok f) :
      Types g labels (f l r) [] [.i64] := by
    unfold numericCombination at h
    split at h
    · cases hc : op?.bind decimalOp? with rw [hc] at h
      | none => cases h
      | some =>
        cases h
        rcases Option.bind_eq_some_iff.mp hc with ⟨op, -, hcode⟩
        -- Integers are converted where they stand, the left one below the right one.
        exact (((hl.append (types_toFloat lt)).append (hr.frame [.f64])).append
          ((types_toFloat rt).frame [.f64])).append (types_decimalOp hcode)
    · cases hc : op?.bind integerOp? with rw [hc] at h
      | none => cases h
      | some =>
        cases h
        rcases Option.bind_eq_some_iff.mp hc with ⟨op, -, hcode⟩
        exact (hl.append (hr.frame [.i64])).append (types_integerOp hcode)
  unfold combination at hop
  split at hop
  · cases hop
  generalize BinaryOp.ofText? p.op = op? at hop
  rcases op? with _ | op | op | op
  · exact hnumeric none hop
  · exact hnumeric (some (.arith op)) hop
  · exact hnumeric (some (.compare op)) hop
  · cases hop
    have hextend : Types g labels (truth ++ [.num .extendU]) [.i64] [.i64] := fun _ _ => rfl
    have hjoin : Types g labels [.num (logicOp op)] [.i64, .i64] [.i64] := by
      cases op <;> exact fun _ _ => rfl
    have hall := ((hl.append hextend).append ((hr.append hextend).frame [.i64])).append hjoin
    simpa using hall

/-- A unary operator takes one value and leaves one. -/
theorem types_application {type : Ty} {f : Code → Code} (hop : application p type = .ok f)
    (hc : Types g labels c [] [.i64]) : Types g labels (f c) [] [.i64] := by
  unfold application at hop
  split at hop
  · cases hop
    exact hc.append fun _ _ => rfl
  split at hop
  · cases hop
    exact hc.append fun _ _ => rfl
  split at hop
  · cases hop
    have hzero : Types g labels [.const 0] [] [.i64] := fun _ _ => rfl
    have hsub : Types g labels [.num .sub] [.i64, .i64] [.i64] := fun _ _ => rfl
    exact (hzero.append (hc.frame [.i64])).append hsub
  · cases hop

theorem types_elementAddress {base : Code × Rep} {index : Code}
    (hbase : Types g labels base.1 [] (words base.2.words))
    (hindex : Types g labels index [] [.i64]) :
    Types g labels (elementAddress base index) [] [.i32] := by
  have hwrap : Types g labels [.num .wrap] [.i64] [.i32] := fun _ _ => rfl
  have hscale : Types g labels [.num .wrap, .const32 8, .num .mul32, .num .add32] [.i64, .i32]
      [.i32] := fun _ _ => rfl
  -- An array is an offset and a length, and the length is not needed.
  rcases base with ⟨c, rep⟩
  refine Types.append (Types.append (Types.append ?_ hwrap) (hindex.frame [.i32])) hscale
  cases rep with
  | fat => exact hbase.append fun _ _ => rfl
  | scalar => exact hbase.append (types_nil _)

theorem types_stored {address : Int} {store : Code} {value : List ValType}
    (hc : Types g labels c [] value) (hstore : Types g labels store (value ++ [.i32]) []) :
    Types g labels ([.const32 address] ++ c ++ store) [] [] := by
  have haddress : Types g labels [.const32 address] [] [.i32] := fun _ _ => rfl
  exact (haddress.append (hc.frame [.i32])).append hstore

/-- Something is left where a value is needed. -/
theorem types_settle (h : Types g labels c [] (words cells)) (hle : cells ≤ 2) :
    Types g labels (settle (c, cells)).1 [] (words (settle (c, cells)).2.words) := by
  match cells, hle with
  -- A value that is none is a zero where one is needed.
  | 0, _ => exact h.append fun _ _ => rfl
  | 1, _ => exact h
  | 2, _ => exact h

/-- A value of another type is made one of this type. -/
theorem types_coercion (h : Types g labels v.1 [] (words v.2.words)) (t : Term) (type : Ty) :
    Types g labels (coercion t type v).1 [] (words type.rep.words) := by
  unfold coercion
  split_ifs with hrep
  · rw [← hrep]
    exact h
  · exact (h.append (types_discard _)).append (types_zero _)

/-- A call takes the cells of the parameters and leaves at most one, which is unpacked. -/
theorem types_called {after : Code} (hc : Types g labels c [] (words (paramCells sym.params)))
    (hsym : g.signature? sym.storage =
      some ⟨words (paramCells sym.params), resultCells sym.result.hasResult⟩)
    (hscratch : scratch < g.locals) (hafter : afterCall scratch sym.result = (after, cells)) :
    Types g labels (c ++ [.call sym.storage] ++ after) [] (words cells) := by
  have hcall : Types g labels [.call sym.storage] _ _ := types_call hsym
  rw [List.reverse_replicate] at hcall
  refine (hc.append hcall).append ?_
  unfold afterCall at hafter
  cases hresult : sym.result.hasResult with rw [hresult] at hafter
  | false =>
    cases hafter
    exact types_nil _
  | true =>
    cases hrep : sym.result.rep with rw [hrep] at hafter
    | fat =>
      cases hafter
      exact types_unpack hscratch
    | scalar =>
      cases hafter
      exact types_nil _

theorem types_printText {v : Code × Rep} (hv : Types g labels v.1 [] (words v.2.words))
    (hscratch : scratch < g.locals)
    (htexts : g.signature? printTextName = some ⟨[.i32, .i32], []⟩) :
    Types g labels (v.1 ++ (if v.2 = .fat then [] else [.const 0]) ++ [.localSet scratch,
      .num .wrap, .localGet scratch, .num .wrap, .call printTextName]) [] [] := by
  have hlength : Types g labels (if v.2 = .fat then [] else [.const 0]) (words v.2.words)
      [.i64, .i64] := by
    cases v.2 with
    | fat => exact types_nil _
    | scalar => exact fun _ _ => rfl
  have hwrap : Types g labels [.num .wrap] [.i64] [.i32] := fun _ _ => rfl
  exact (hv.append hlength).append (((types_localSet hscratch).frame [.i64]).append (hwrap.append
    (((types_localGet hscratch).frame [.i32]).append ((hwrap.frame [.i32]).append
      (types_call htexts)))))

end Fragments

end Codegen.Wasm
