import ScopeChain.Proofs.Compilation
import ScopeChain.Proofs.Renderings

/-! Compiled code is well addressed: following an address outward through the entries around it leads
to the name that it was made for. -/
namespace ScopeChain

namespace Code

variable {limit : Nat} {strict : Bool} {Φ Ψ : List Frame} {Γ Δ : List Entry} {x y : Part}

/-- An entry that makes a scope of its own whenever its body runs. -/
def Entry.IsLevel (e : Entry) : Prop := e.mode = .template ∨ e.mode = .catch

/-- Following `depth` entries outward, all of functions and catch clauses, leads to one that has a name
in a slot, and to none before it that has the name at all. -/
inductive Leads (n : Name) : List Entry → (depth slot : Nat) → Prop where
  | here {e : Entry} {Γ : List Entry} {slot : Nat} :
    e.IsLevel → e.names[slot]? = some n → Leads n (e :: Γ) 0 slot
  | outward {e : Entry} {Γ : List Entry} {depth slot : Nat} :
    e.IsLevel → n ∉ e.names → Leads n Γ depth slot → Leads n (e :: Γ) (depth + 1) slot

/-- A frame is what is known of the scope that an entry makes. -/
structure Entry.Opens (e : Entry) (F : Frame) : Prop where
  isLevel : e.IsLevel
  names : F.names = e.names

/-- What is found along frames is found along the entries that they stand for. -/
theorem leads_of_finds {n : Name} {depth slot : Nat} (h : Finds n Φ depth slot)
    (hΓ : List.Forall₂ Entry.Opens Γ Φ) (Δ : List Entry) : Leads n (Γ ++ Δ) depth slot := by
  induction h generalizing Γ with
  | here hslot =>
    cases hΓ with
    | cons he _ => exact .here he.isLevel (he.names ▸ hslot)
  | outward hn _ _ ih =>
    cases hΓ with
    | cons he hΓ => exact .outward he.isLevel (he.names ▸ hn) (ih hΓ)

namespace Part

/-- A part is at home within some frames. -/
def Fits (limit : Nat) (Φ : List Frame) (strict : Bool) : Part → Prop
  | .function c => c.Fits limit Φ
  | .catch c => c.Fits limit Φ strict
  | .stmt s => s.Fits limit Φ strict
  | .expr e => e.Fits limit Φ strict
  | .use u => u.Fits limit Φ

theorem fits_stmt {s : Stmt} (h : s.Fits limit Φ strict) :
    ∀ y ∈ (Part.stmt s).parts, y.Fits limit Φ strict := by
  cases h with
  | expr he => simpa [parts, Fits] using he
  | init he => simpa [parts, Fits] using he
  | throw he => simpa [parts, Fits] using he
  | «return» he => simpa [parts, Fits] using he
  | «if» ht hs ha => simpa [parts, Fits] using ⟨ht, hs, ha⟩
  | «while» ht hs => simpa [parts, Fits] using ⟨ht, hs⟩
  | block hs => simpa [parts, Fits] using hs
  | «try» hs hh hf =>
    simp only [parts, List.mem_append, List.mem_map, Option.mem_toList]
    rintro y (⟨s, hm, rfl⟩ | ⟨c, hm, rfl⟩ | ⟨s, hm, rfl⟩)
    · exact hs s hm
    · exact hh c hm
    · exact forall_mem_getD hf s hm

theorem fits_expr {e : Expr} (h : e.Fits limit Φ strict) :
    ∀ y ∈ (Part.expr e).parts, y.Fits limit Φ strict := by
  cases h with
  | number | string | bool | null => simp [parts]
  | load hu => simpa [parts, Fits] using hu
  | typeofName hu => simpa [parts, Fits] using hu
  | deleteName hu => simpa [parts, Fits] using hu
  | store hu he => simpa [parts, Fits] using ⟨hu, he⟩
  | binary hl hr => simpa [parts, Fits] using ⟨hl, hr⟩
  | unary he => simpa [parts, Fits] using he
  | typeof he => simpa [parts, Fits] using he
  | deleteValue he => simpa [parts, Fits] using he
  | call hf ha => simpa [parts, Fits] using ⟨hf, ha⟩
  | directEval _ ha => simpa [parts, Fits] using ha
  | function hc => simpa [parts, Fits] using hc

/-- Code of a body is within the frame that its entry opens. -/
theorem fits_function {c : FunctionCode} (h : c.Fits limit Φ) :
    ∃ F, c.entry.Opens F ∧ ∀ y ∈ (Part.function c).parts, y.Fits limit (F :: Φ) c.strict := by
  cases h with
  | intro isOpen hmode _ _ _ _ _ hcodes hbody =>
    refine ⟨⟨c.entry.names, false, isOpen⟩, ⟨.inl hmode, rfl⟩, ?_⟩
    simp only [parts, List.mem_append, List.mem_map]
    rintro y (⟨s, hs, rfl⟩ | ⟨h, hm, rfl⟩)
    · exact hbody s hs
    · exact hcodes h hm

theorem fits_catch {c : CatchCode} (h : c.Fits limit Φ strict) :
    ∃ F, c.entry.Opens F ∧ ∀ y ∈ (Part.catch c).parts, y.Fits limit (F :: Φ) strict := by
  cases h with
  | intro hmode _ hcodes _ hbody =>
    refine ⟨⟨c.entry.names, true, false⟩, ⟨.inr hmode, rfl⟩, ?_⟩
    simp only [parts, List.mem_append, List.mem_map, hcodes]
    rintro y (⟨s, hs, rfl⟩ | ⟨h, hm, rfl⟩)
    · exact hbody s hs
    · cases hm

/-- The step inward: what a part is made of fits where the part does, within the frame of the entry
that it puts around it. -/
theorem Fits.step (h : x.Fits limit Φ strict) (hΓ : List.Forall₂ Entry.Opens Γ Φ)
    (hy : y ∈ x.parts) : ∃ Φ' strict', List.Forall₂ Entry.Opens (x.entry?.toList ++ Γ) Φ' ∧
      y.Fits limit Φ' strict' := by
  cases x with
  | function c =>
    obtain ⟨F, hF, hparts⟩ := fits_function h
    exact ⟨F :: Φ, c.strict, .cons hF hΓ, hparts y hy⟩
  | «catch» c =>
    obtain ⟨F, hF, hparts⟩ := fits_catch h
    exact ⟨F :: Φ, strict, .cons hF hΓ, hparts y hy⟩
  | stmt s => exact ⟨Φ, strict, hΓ, fits_stmt h y hy⟩
  | expr e => exact ⟨Φ, strict, hΓ, fits_expr h y hy⟩
  | use u => cases hy

end Part

/-- A part of a program fits within frames that stand for all entries around it but the program's. -/
theorem Encloses.fits {c : FunctionCode} {mode : EntryMode} (hc : c.FitsProgram limit mode)
    (h : Encloses c Γ x) : (Γ = [] ∧ x = .function c) ∨ ∃ Δ Φ strict, Γ = Δ ++ [c.entry] ∧
      List.Forall₂ Entry.Opens Δ Φ ∧ x.Fits limit Φ strict := by
  induction h with
  | root => exact .inl ⟨rfl, rfl⟩
  | @inner Γ x y _ hy ih =>
    right
    rcases ih with ⟨rfl, rfl⟩ | ⟨Δ, Φ, strict, rfl, hΔ, hx⟩
    · refine ⟨[], [], c.strict, rfl, .nil, ?_⟩
      simp only [Part.parts, List.mem_append, List.mem_map] at hy
      rcases hy with ⟨s, hs, rfl⟩ | ⟨h, hm, rfl⟩
      · exact hc.body s hs
      · exact hc.hoisted h hm
    · obtain ⟨Φ', strict', hΔ', hy'⟩ := hx.step hΔ hy
      exact ⟨x.entry?.toList ++ Δ, Φ', strict', (List.append_assoc _ _ _).symm, hΔ', hy'⟩

/-- An address leads to the name that it was made for. -/
theorem Encloses.leads {c : FunctionCode} {mode : EntryMode} (hc : c.FitsProgram limit mode)
    {u : Use} (h : Encloses c Γ (.use u)) {depth slot : Nat}
    (hu : u.address = .static depth slot) : Leads u.name Γ depth slot := by
  rcases h.fits hc with ⟨-, hx⟩ | ⟨Δ, Φ, strict, rfl, hΔ, hx⟩
  · cases hx
  · have hfits : u.address.Fits limit Φ u.name := hx
    rw [hu] at hfits
    exact leads_of_finds hfits.2 hΔ [c.entry]

/-- What holds throughout the body of a program holds of all its parts. -/
theorem Encloses.throughout {c : FunctionCode} {P : Part → Prop} (h : Encloses c Γ x)
    (hc : ∀ y ∈ (Part.function c).parts, y.Throughout P) :
    (Γ = [] ∧ x = .function c) ∨ x.Throughout P := by
  induction h with
  | root => exact .inl ⟨rfl, rfl⟩
  | inner _ hy ih =>
    right
    rcases ih with ⟨-, rfl⟩ | hx
    · exact hc _ hy
    · cases hx with
      | intro _ hparts => exact hparts _ hy

namespace Emission

/-- The code of a program is made from the program, and its entry lists the names of its scope. -/
theorem makes_program {b : Binding} {p : Program} {eval : Bool} (hb : Finished b p.items)
    (hbound : b.ProgramBound p eval) : Makes b p.items (program b p) fun c =>
      ((∃ s, b.scope? p.id = some s ∧ c.entry.Lists s) ∧
        c.entry.Instantiates b [] (ScopeChain.Stmt.allDeclarations p.body)) ∧
      ∀ y ∈ (Part.function c).parts, y.Sourced b p.items := by
  obtain ⟨root, s, hroot, hs, -, htable⟩ := hbound.root
  refine (guarantees_scopeOf p.id).bind fun scope hscope => ?_
  obtain rfl : root = scope := Option.some.inj (hroot.symm.trans hscope)
  refine (guarantees_descriptor root).bind fun s' _ =>
    (makes_stmts hb p.body (List.Subset.refl _)).bind fun ss hss =>
      (makes_entry hb hs htable (ScopeChain.Stmt.allDeclaredAmong p.body) (modeOf s')).bind ?_
  rintro e ⟨⟨hlists, hinstantiates⟩, -, hcodes⟩
  exact .pure ⟨⟨⟨s, Binding.scope?_of_find? hroot hs, hlists⟩, hinstantiates⟩,
    throughout_body hss hcodes⟩

end Emission

end Code

open Code

/-- Compiled code is well addressed. What its entries list is what the scopes declare, each slot that is
to be filled is that of the very name, and an address made for a name leads to that name, along the
entries around it and without reaching that of the program. -/
structure Compiled.WellAddressed (p : Program) (eval : Bool) (c : Compiled) : Prop where
  mode : c.code.entry.mode = Emission.rootMode eval
  entry : ∃ s, c.binding.scope? p.id = some s ∧ c.code.entry.Lists s
  functions : ∀ Γ d, Encloses c.code Γ (.function d) → Γ ≠ [] →
    ∃ f, .function f ∈ p.items ∧ d.Renders c.binding f
  clauses : ∀ Γ d, Encloses c.code Γ (.catch d) → ∃ h, .clause h ∈ p.items ∧ d.Renders c.binding h
  uses : ∀ Γ u, Encloses c.code Γ (.use u) → ∃ i, .name i ∈ p.items ∧ u.Renders c.binding i ∧
    ∀ depth slot, u.address = .static depth slot → Leads i.name Γ depth slot

/-- Compiled code is made from the program, and its entry lists what the program declares. -/
structure Compiled.Sourced (p : Program) (c : Compiled) : Prop where
  entry : ∃ s, c.binding.scope? p.id = some s ∧ c.code.entry.Lists s
  instantiates : c.code.entry.Instantiates c.binding [] (Stmt.allDeclarations p.body)
  parts : ∀ y ∈ (Part.function c.code).parts, y.Sourced c.binding p.items

/-- A part of a program is the program, or it is made from something in it. -/
theorem Compiled.Sourced.made {p : Program} {c : Compiled} (h : c.Sourced p) {Γ : List Entry}
    {x : Part} (hx : Encloses c.code Γ x) :
    (Γ = [] ∧ x = .function c.code) ∨ x.Made c.binding p.items := by
  rcases hx.throughout h.parts with hroot | hx
  · exact .inl hroot
  · cases hx with
    | intro hmade _ => exact .inr hmade

namespace Compilation

theorem sourced_ofProgram {p : Program} {eval : Bool} {b : Binding} {code : FunctionCode}
    (hn : p.nodes.Nodup) (hbound : b.ProgramBound p eval) (hcode : Code.ofProgram b p = .ok code)
    (ds : Diagnostics) : (Compiled.mk code b ds).Sourced p := by
  have hfinished : Emission.Finished b p.items :=
    ⟨hbound.draft, Binding.StmtsBound.allScoped p.body [] hbound.body, Program.items_nodup hn⟩
  have hnone : Declared.Made b p.items {} := by
    intro node c hc
    simp at hc
  obtain ⟨⟨hentry, hinstantiates⟩, hparts⟩ :=
    (Emission.makes_program hfinished hbound).of_ofProgram hnone hcode
  exact ⟨hentry, hinstantiates, hparts⟩

/-- A binding and the code made under it fit together. -/
theorem wellAddressed_ofProgram {p : Program} {eval : Bool} {b : Binding} {code : FunctionCode}
    (hn : p.nodes.Nodup) (hbound : b.ProgramBound p eval) (hcode : Code.ofProgram b p = .ok code)
    (hfits : code.FitsProgram b.scopes.limits.maxDepth (Emission.rootMode eval))
    (ds : Diagnostics) : (Compiled.mk code b ds).WellAddressed p eval := by
  have hsourced := sourced_ofProgram hn hbound hcode ds
  obtain ⟨s, hs, hlists⟩ := hsourced.entry
  constructor
  · exact hfits.mode_eq
  · exact ⟨s, hs, hlists⟩
  · intro Γ d h hΓ
    rcases hsourced.made h with ⟨hnil, -⟩ | ⟨f, hf, hrenders, -⟩
    · exact absurd hnil hΓ
    · exact ⟨f, hf, hrenders⟩
  · intro Γ d h
    rcases hsourced.made h with ⟨-, hx⟩ | hmade
    · cases hx
    · exact hmade
  · intro Γ u h
    rcases hsourced.made h with ⟨-, hx⟩ | ⟨i, hi, hu⟩
    · cases hx
    · refine ⟨i, hi, hu, ?_⟩
      intro depth slot hstatic
      rw [← hu.name]
      exact h.leads hfits hstatic

/-- A program that was read is refused for an error in the text or for scopes nested too deep, or has
code that is well addressed. -/
theorem wellAddressed_ofParse {r : Parser.Result} (hn : r.program.nodes.Nodup) (eval : Bool)
    (limits : Limits) : match ofParse r eval limits with
      | .ok c => c.WellAddressed r.program eval
      | .error e => (∃ d, e = .malformed d) ∨ ∃ limit, e = .scope (.depthExceeded limit) := by
  unfold ofParse
  cases r.diagnostics.firstError? with
  | some d => exact Or.inl ⟨d, rfl⟩
  | none =>
    rcases Binding.ofProgram_spec hn eval limits r.names with
      ⟨b, hb, hbound, -⟩ | ⟨limit, hb, -⟩
    · obtain ⟨code, hcode, hfits, -⟩ := Code.ofProgram_spec hn hbound
      simp only [hb, hcode, Except.mapError, bind, Except.bind]
      exact wellAddressed_ofProgram hn hbound hcode hfits _
    · simp only [hb, Except.mapError, bind, Except.bind]
      exact Or.inr ⟨limit, rfl⟩

/-- Whatever text is compiled, its code is well addressed, unless there is an error in the text or too
many scopes are nested. -/
theorem code_is_well_addressed (o : Options) (file text : String) (strict eval : Bool)
    (names : Interner) :
    match (ofText o file text strict eval names).1 with
    | .ok c => c.WellAddressed (Parser.parse file text strict names).program eval
    | .error e => (∃ d, e = .malformed d) ∨ ∃ limit, e = .scope (.depthExceeded limit) :=
  wellAddressed_ofParse (Parser.nodup_nodes_parse file text strict names) eval o.limits

end Compilation

end ScopeChain
