/-! Paths of source files, as far as their extension matters. -/
namespace KLambda.Console

/-- The last part of a path that names something. Trailing slashes and single dots name nothing. -/
def fileName? (path : String) : Option String :=
  match ((path.splitOn "/").filter fun part => part ≠ "" && part ≠ ".").getLast? with
  | some name => if name = ".." then none else some name
  | none => none

/-- What stands after the last point, unless nothing stands before it. -/
def extension? (path : String) : Option String :=
  match fileName? path with
  | none => none
  | some name =>
    let rest := name.toList.reverse.dropWhile (· != '.')
    match rest with
    | [] | [_] => none
    | _ => some (String.ofList (name.toList.reverse.takeWhile (· != '.')).reverse)

end KLambda.Console
