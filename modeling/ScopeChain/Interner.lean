/-! Names as numbers: equal texts get equal names, in order of first sight. -/
namespace ScopeChain

/-- An interned identifier. -/
structure Name where
  index : Nat
deriving DecidableEq, Hashable, Repr, Inhabited

/-- What is counted on wherever names stand for texts. One interner may come after another; it then
knows the texts of the earlier one, and by the same names. -/
structure Interning {T : Type} [LE T] (find? : T → String → Option Name)
    (intern : T → String → Name × T) (text : T → Name → String) : Prop where
  le_refl (t : T) : t ≤ t
  le_trans {t u v : T} : t ≤ u → u ≤ v → t ≤ v
  le_intern (t : T) (s : String) : t ≤ (intern t s).2
  find?_intern (t : T) (s : String) : find? (intern t s).2 s = some (intern t s).1
  find?_of_le {t u : T} {s : String} {n : Name} : t ≤ u → find? t s = some n → find? u s = some n
  text_of_find? {t : T} {s : String} {n : Name} : find? t s = some n → text t n = s

namespace Interning

variable {T : Type} [LE T] {find? : T → String → Option Name} {intern : T → String → Name × T}
  {text : T → Name → String} {t u : T} {s s' : String} {n : Name}

/-- A name keeps its text. -/
theorem text_of_le (h : Interning find? intern text) (hle : t ≤ u) (hs : find? t s = some n) :
    text u n = s := h.text_of_find? (h.find?_of_le hle hs)

/-- Different texts get different names. -/
theorem intern_inj (h : Interning find? intern text) (hle : (intern t s).2 ≤ u)
    (heq : (intern t s).1 = (intern u s').1) : s = s' := by
  have hs := h.text_of_le (h.le_trans hle (h.le_intern u s')) (h.find?_intern t s)
  rw [← hs, heq, h.text_of_find? (h.find?_intern u s')]

end Interning

/-- The texts seen so far; the name of a text is its position. -/
structure Interner where
  texts : Array String
deriving Repr

namespace Name

/-- The implicit receiver binding of every function. -/
def this : Name := ⟨0⟩

/-- The implicit list of passed arguments of every function. -/
def arguments : Name := ⟨1⟩

/-- The callee that makes a call a direct eval. -/
def eval : Name := ⟨2⟩

def undefined : Name := ⟨3⟩

end Name

namespace Interner

/-- The four names that every program shares, and no other. -/
def wellKnown : Interner := ⟨#["this", "arguments", "eval", "undefined"]⟩

instance : Inhabited Interner := ⟨wellKnown⟩

def size (t : Interner) : Nat := t.texts.size

def find? (t : Interner) (s : String) : Option Name := (t.texts.idxOf? s).map Name.mk

def intern (t : Interner) (s : String) : Name × Interner :=
  match t.find? s with
  | some n => (n, t)
  | none => (⟨t.size⟩, ⟨t.texts.push s⟩)

/-- The text behind a name, empty for a name that was never given out. -/
def text (t : Interner) (n : Name) : String := (t.texts[n.index]?).getD ""

end Interner

end ScopeChain
