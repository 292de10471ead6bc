import ScopeChain.Proofs.Addressing
import ScopeChain.Proofs.Logs

/-! The names that a program declares: those of its variables and of its named functions, blocks and
catch clauses included and nested functions left out. The entry of its code has them and no others. -/
namespace ScopeChain

mutual

/-- The names that a statement declares in the body that it stands in. -/
def Stmt.declaredNames : Stmt → List Name
  | .var ds => ds.map (·.target.name)
  | .function ⟨_, self, _, _, _, _⟩ => self.toList.map Identifier.name
  | .if _ c none => c.declaredNames
  | .if _ c (some a) => c.declaredNames ++ a.declaredNames
  | .while _ b => b.declaredNames
  | .block b => Stmt.allDeclaredNames b
  | .try b h f =>
    Stmt.allDeclaredNames b ++
      (Stmt.handlerDeclaredNames h ++ Stmt.finalizerDeclaredNames f)
  | .expr _ | .return _ _ | .throw _ | .empty => []

def Stmt.allDeclaredNames : List Stmt → List Name
  | [] => []
  | s :: ss => s.declaredNames ++ Stmt.allDeclaredNames ss

def Stmt.handlerDeclaredNames : Option CatchClause → List Name
  | none => []
  | some ⟨_, _, body⟩ => Stmt.allDeclaredNames body

def Stmt.finalizerDeclaredNames : Option (List Stmt) → List Name
  | none => []
  | some body => Stmt.allDeclaredNames body

end

def Program.declaredNames (p : Program) : List Name := Stmt.allDeclaredNames p.body

mutual

theorem Stmt.map_declarations : (s : Stmt) → s.declarations.map Prod.fst = s.declaredNames
  | .var ds => by
    rw [declarations, List.map_map]
    rfl
  | .function ⟨_, self, _, _, _, _⟩ => by
    rw [declarations, List.map_map]
    rfl
  | .if _ c none => Stmt.map_declarations c
  | .if _ c (some a) => by
    rw [declarations, List.map_append, Stmt.map_declarations c, Stmt.map_declarations a]
    rfl
  | .while _ b => Stmt.map_declarations b
  | .block b => Stmt.map_allDeclarations b
  | .try b h f => by
    rw [declarations, List.map_append, List.map_append, Stmt.map_allDeclarations b,
      Stmt.map_handlerDeclarations h, Stmt.map_finalizerDeclarations f]
    rfl
  | .expr _ | .return _ _ | .throw _ | .empty => rfl

theorem Stmt.map_allDeclarations : (ss : List Stmt) →
    (Stmt.allDeclarations ss).map Prod.fst = Stmt.allDeclaredNames ss
  | [] => rfl
  | s :: ss => by
    rw [allDeclarations, List.map_append, Stmt.map_declarations s, Stmt.map_allDeclarations ss]
    rfl

theorem Stmt.map_handlerDeclarations : (h : Option CatchClause) →
    (Stmt.handlerDeclarations h).map Prod.fst = Stmt.handlerDeclaredNames h
  | none => rfl
  | some ⟨_, _, body⟩ => Stmt.map_allDeclarations body

theorem Stmt.map_finalizerDeclarations : (f : Option (List Stmt)) →
    (Stmt.finalizerDeclarations f).map Prod.fst = Stmt.finalizerDeclaredNames f
  | none => rfl
  | some body => Stmt.map_allDeclarations body

end

namespace Compilation

theorem of_ofParse {r : Parser.Result} {eval : Bool} {limits : Limits} {c : Compiled}
    (h : ofParse r eval limits = .ok c) : r.diagnostics.hasErrors = false ∧
      Binding.ofProgram r.program eval limits r.names = .ok c.binding ∧
      Code.ofProgram c.binding r.program = .ok c.code := by
  unfold ofParse at h
  cases hd : r.diagnostics.firstError? with
  | some d =>
    rw [hd] at h
    cases h
  | none =>
    have herrors : r.diagnostics.hasErrors = false := by
      rw [Diagnostics.hasErrors, List.any_eq_false]
      exact List.find?_eq_none.mp hd
    cases hb : Binding.ofProgram r.program eval limits r.names with
    | error e =>
      rw [hd, hb] at h
      cases h
    | ok b =>
      rw [hd, hb] at h
      cases hc : Code.ofProgram b r.program <;>
        simp only [Except.mapError, bind, Except.bind, hc] at h <;> cases h
      exact ⟨herrors, rfl, hc⟩

/-- Compiled code is made from the program that was read. -/
theorem sourced_ofText {o : Options} {file text : String} {strict eval : Bool} {names : Interner}
    {c : Compiled} (h : (ofText o file text strict eval names).1 = .ok c) :
    c.Sourced (Parser.parse file text strict names).program := by
  have hn := Parser.nodup_nodes_parse file text strict names
  obtain ⟨-, hb, hcode⟩ := of_ofParse h
  rcases Binding.ofProgram_spec hn eval o.limits (Parser.parse file text strict names).names with
    ⟨b, hb', hbound, -⟩ | ⟨_, hb', -⟩
  · cases hb.symm.trans hb'
    exact sourced_ofProgram hn hbound hcode c.diagnostics
  · cases hb.symm.trans hb'

/-- Compiled code enters the names that its program declares. -/
theorem mem_names_ofText {o : Options} {file text : String} {strict eval : Bool} {names : Interner}
    {c : Compiled} (h : (ofText o file text strict eval names).1 = .ok c) (n : Name) :
    n ∈ c.code.entry.names ↔ n ∈ (Parser.parse file text strict names).program.declaredNames := by
  rw [(sourced_ofText h).instantiates.mem_names, Stmt.map_allDeclarations]
  exact or_iff_right List.not_mem_nil

end Compilation

end ScopeChain
