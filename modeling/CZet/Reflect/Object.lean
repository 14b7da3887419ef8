/- source: src/gcc/gcc/c/c-parser.cc (the layout of reflect_t), docs/CZET_REFLECT_GUIDE.md
   digest: The metadata objects that _Reflect builds and the standard library reads. -/

set_option autoImplicit false
set_option relaxedAutoImplicit false

namespace CZet.Reflect

/-- A `reflect_t *`.  The `fields` array has `entries` elements, none when it is `NULL`; for kinds 6
and 7 an array that is there has `count` of them. -/
inductive ReflectT
  | null
  | obj (kind : Int) (size align : Nat) (name : String) (count : Nat) (elem : ReflectT)
      (entries : Nat) (fieldName : Fin entries → String) (fieldOffset : Fin entries → Nat)
      (fieldType : Fin entries → ReflectT)

/-- `r->size`; 0 for `NULL`. -/
def ReflectT.size : ReflectT → Nat
  | .null => 0
  | .obj _ size _ _ _ _ _ _ _ _ => size

def ReflectT.kind : ReflectT → Int
  | .null => 0
  | .obj kind .. => kind

def ReflectT.align : ReflectT → Nat
  | .null => 0
  | .obj _ _ align _ _ _ _ _ _ _ => align

def ReflectT.elem : ReflectT → ReflectT
  | .null => .null
  | .obj _ _ _ _ _ elem _ _ _ _ => elem

def ReflectT.isNull : ReflectT → Bool
  | .null => true
  | .obj .. => false

end CZet.Reflect
