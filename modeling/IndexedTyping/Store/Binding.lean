import IndexedTyping.OpenTy.Basic

namespace IndexedTyping

structure Binding where
  name : String
  value : OpenTy
  deriving DecidableEq, Repr

def Binding.render (b : Binding) : String := b.name ++ " := " ++ b.value.render

end IndexedTyping
