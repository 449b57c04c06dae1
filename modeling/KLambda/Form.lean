/-! Forms: what source text denotes before it is given a meaning. -/
namespace KLambda

inductive Form where
  | number (n : Float)
  | str (s : String)
  | symbol (name : String)
  | list (items : List Form)

end KLambda
