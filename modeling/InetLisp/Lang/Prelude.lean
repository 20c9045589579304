import InetLisp.Lang.Definitions
import InetLisp.Value.Xint

/-! # The prelude

Every module starts with two truth values and with primitives, most of which have a node ctor.
What their functions in C compute is left open.
-/

namespace InetLisp.Define

/-- `define_primitive_node_ctor_1` -/
def primitiveNodeCtor1 (fn : String → PureFn) (name : String) (portNames : List String) :
    PrimitiveDef := ⟨name, 1, 1, .fn (fn name), some portNames⟩

/-- `define_primitive_node_ctor_2` -/
def primitiveNodeCtor2 (fn : String → PureFn) (name : String) (portNames : List String) :
    PrimitiveDef := ⟨name, 2, 1, .fn (fn name), some portNames⟩

/-- The primitives of `import_prelude`. -/
def prelude (fn : String → PureFn) : List PrimitiveDef := [
  ⟨"connect", 2, 0, .connect, none⟩,
  ⟨"link", 0, 2, .link, none⟩,
  primitiveNodeCtor1 fn "not" ["x!", "result"],
  primitiveNodeCtor2 fn "and" ["x!", "y!", "result"],
  primitiveNodeCtor2 fn "or" ["x!", "y!", "result"],
  primitiveNodeCtor2 fn "eq?" ["x!", "y!", "result"],
  ⟨"assert", 1, 0, .fn (fn "assert"), some ["value!"]⟩,
  primitiveNodeCtor1 fn "int?" ["x!", "result"],
  primitiveNodeCtor2 fn "iadd" ["x!", "y!", "result"],
  primitiveNodeCtor2 fn "isub" ["x!", "y!", "result"],
  primitiveNodeCtor2 fn "imul" ["x!", "y!", "result"],
  primitiveNodeCtor2 fn "idiv" ["x!", "y!", "result"],
  primitiveNodeCtor2 fn "imod" ["x!", "y!", "result"],
  primitiveNodeCtor1 fn "int-to-float" ["i!", "f"],
  ⟨"int-dup", 1, 2, .fn (fn "int-dup"), some ["target!", "first", "second"]⟩,
  primitiveNodeCtor1 fn "float?" ["x!", "result"],
  primitiveNodeCtor2 fn "fadd" ["x!", "y!", "result"],
  primitiveNodeCtor2 fn "fsub" ["x!", "y!", "result"],
  primitiveNodeCtor2 fn "fmul" ["x!", "y!", "result"],
  primitiveNodeCtor2 fn "fdiv" ["x!", "y!", "result"],
  primitiveNodeCtor2 fn "fmod" ["x!", "y!", "result"],
  primitiveNodeCtor1 fn "float-to-int" ["f!", "i"],
  ⟨"float-dup", 1, 2, .fn (fn "float-dup"), some ["target!", "first", "second"]⟩,
  ⟨"fn-dup", 1, 2, .fn (fn "fn-dup"), some ["target!", "first", "second"]⟩]

/-- The definitions of the prelude that are no primitives. -/
def preludeValues : ValueHash := [("false".toList, xfalse), ("true".toList, xtrue)]

instance : DecidablePred PrimitiveDef.IsRegular := fun d =>
  inferInstanceAs (Decidable (∀ portNames ∈ d.portNames,
    portNames.length = d.inputArity + d.outputArity ∧
      ∃ name ∈ portNames, (PortInfo.fromName name).isPrincipal))

theorem isRegular_of_mem_prelude (fn : String → PureFn) {d : PrimitiveDef} (h : d ∈ prelude fn) :
    d.IsRegular := by
  have hall : (prelude fn).all (fun d => decide d.IsRegular) = true := rfl
  exact of_decide_eq_true (List.all_eq_true.mp hall d h)

theorem isNonWire_of_mem_preludeValues {x : Text × Value} (h : x ∈ preludeValues) :
    x.2.IsNonWire := by
  simp only [preludeValues, List.mem_cons, List.not_mem_nil, or_false] at h
  rcases h with rfl | rfl <;> trivial

end InetLisp.Define
