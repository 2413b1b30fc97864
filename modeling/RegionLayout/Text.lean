namespace RegionLayout

/-- Texts in order, with `separator` between neighbours. -/
def joined (separator : String) : List String → String
  | [] => ""
  | [s] => s
  | s :: rest => s ++ separator ++ joined separator rest

end RegionLayout
