import Primer.Node

/-!
The programs that are run when no file is given.
-/

set_option autoImplicit false
set_option relaxedAutoImplicit false

namespace Primer

structure Demo where
  title : String
  program : Program

namespace Demo

private def number (n : Nat) : Node := .literal (.number (.ofNat n))

private def string (s : String) : Node := .literal (.string s)

private def print (node : Node) : Node := .call "print" [node]

def hello : Demo where
  title := "hello"
  program :=
    [.declare "who" none (some (string "world")),
      print (string "hello"),
      print (.var "who")]

def counting : Demo where
  title := "repeat"
  program :=
    [.declare "count" none (some (number 0)),
      .times (number 3)
        [.assign "count" (.binary (.arith .add) (.var "count") (number 1)),
          print (.convert (.var "count") .string)]]

def lists : Demo where
  title := "lists"
  program :=
    [.declare "fruit" none (some (.list [string "apple", string "pear", string "plum"])),
      .setItem (number 2) (.var "fruit") (string "fig"),
      print (.item (number 2) (.var "fruit"))]

def factorial : Demo where
  title := "factorial"
  program :=
    let n : Node := .var "n"
    [.define "fact" [⟨"n", none⟩] (some .number)
        [.branch (.binary (.order .lessEq) n (number 1)) [.giveBack (some (number 1))] none,
          .giveBack (some (.binary (.arith .mul) n
            (.call "fact" [.binary (.arith .sub) n (number 1)])))],
      print (.convert (.call "fact" [number 10]) .string)]

def all : List Demo := [hello, counting, lists, factorial]

end Demo

end Primer
