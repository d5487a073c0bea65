/-! The module that other modules start with, as a text in the language. -/

namespace MatchLang

/-- The name the module is imported under. -/
def preludeName : String := "prelude"

def preludeSource : String :=
"# Standard prelude. Imported into the root namespace of every interpreter
# unless prelude loading is turned off.

public let id = { x -> x }

# Booleans

public let not = { b -> (match b [ { (True) -> False } { _ -> True } ]) }

public let and = { a b -> (match a [ { (True) -> b } { _ -> False } ]) }

public let or = { a b -> (match a [ { (True) -> True } { _ -> b } ]) }

# Branches are thunks so only the chosen one runs.
public let if = { c then else -> (match c [ { (True) -> (then) } { _ -> (else) } ]) }

# Lists

public let fold = { f acc xs ->
  (match xs [
    { (:: x rest) -> (. f (f acc x) rest) }
    { _ -> acc }
  ])
}

public let reverse = { xs -> (fold { acc x -> (:: x acc) } [] xs) }

public let length = { xs -> (fold { n _ -> (+ n 1) } 0 xs) }

public let map = { f xs -> (reverse (fold { acc x -> (:: (f x) acc) } [] xs)) }

public let filter = { p xs ->
  let keep = { acc x -> (if (p x) { -> (:: x acc) } { -> acc }) }
  (reverse (fold keep [] xs))
}

public let append = { xs ys -> (fold { acc x -> (:: x acc) } ys (reverse xs)) }

# Numbers lo, lo+1, ..., hi-1.
public let range = { lo hi ->
  let go = { acc n ->
    (match (< n lo) [
      { (True) -> acc }
      { _ -> (. (:: n acc) (- n 1)) }
    ])
  }
  (go [] (- hi 1))
}
"

end MatchLang
