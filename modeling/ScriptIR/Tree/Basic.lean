import ScriptIR.Location

namespace ScriptIR

-- The kinds of a node whose sub-trees are all children. A name or a text
-- stands in the kind, and never in a child of its own.
inductive Kind where
  | program
  | main
  | paramList
  | block
  | varDecl (name : String)
  | assignment
  | ifStatement
  | elseStatement
  | bareReturn
  | call
  -- an array, named where it is a declaration
  | array (name : Option String)
  -- a block of key/value pairs, named where it is a declaration
  | keyValue (name : Option String)
  | expressionList
  | argumentList
  | pair
  | expression
  | arrayAccess
  | literal (value : String)
  | operator (sign : String)
  | identifier (name : String)
deriving DecidableEq

-- A syntax tree. Three kinds of node own sub-trees beside their children, and
-- a walk over children does not come across those: the parameters of a
-- function, the bounds of a loop and the value of a return.
--
-- Nothing here says which children a kind should have. A tree that comes from
-- elsewhere than the grammar may break every rule, and the stages behind the
-- grammar have to cope with it.
inductive Tree where
  | node (kind : Kind) (children : List Tree) (place : Location)
  | function (name : String) (params : Tree) (children : List Tree) (place : Location)
  | loop (counter : String) (first last : Tree) (children : List Tree) (place : Location)
  | giving (value : Tree) (children : List Tree) (place : Location)

-- The name of a kind in messages and listings.
def Kind.name : Kind → String
  | .program => "program"
  | .main => "main"
  | .paramList => "param_list"
  | .block => "statement"
  | .varDecl _ => "var_decl"
  | .assignment => "assignment"
  | .ifStatement => "if"
  | .elseStatement => "else"
  | .bareReturn => "return"
  | .call => "function_call"
  | .array _ => "array"
  | .keyValue _ => "key_value"
  | .expressionList => "expression_list"
  | .argumentList => "arg_list"
  | .pair => "key_value_pair"
  | .expression => "expression"
  | .arrayAccess => "array_access"
  | .literal _ => "literal"
  | .operator _ => "operator"
  | .identifier _ => "identifier"

-- The name or the text that a kind carries.
def Kind.payload : Kind → Option String
  | .varDecl name => some name
  | .array name => name
  | .keyValue name => name
  | .literal value => some value
  | .operator sign => some sign
  | .identifier name => some name
  | _ => none

namespace Tree

def kindName : Tree → String
  | .node kind _ _ => kind.name
  | .function _ _ _ _ => "function"
  | .loop _ _ _ _ _ => "for_loop"
  | .giving _ _ _ => "return"

def payload : Tree → Option String
  | .node kind _ _ => kind.payload
  | .function name _ _ _ => some name
  | .loop counter _ _ _ _ => some counter
  | .giving _ _ _ => none

def children : Tree → List Tree
  | .node _ children _ => children
  | .function _ _ children _ => children
  | .loop _ _ _ children _ => children
  | .giving _ children _ => children

-- The sub-trees beside the children, in the order of the source.
def owned : Tree → List Tree
  | .node _ _ _ => []
  | .function _ params _ _ => [params]
  | .loop _ first last _ _ => [first, last]
  | .giving value _ _ => [value]

def place : Tree → Location
  | .node _ _ place => place
  | .function _ _ _ place => place
  | .loop _ _ _ _ place => place
  | .giving _ _ place => place

def identifierName? : Tree → Option String
  | .node (.identifier name) _ _ => some name
  | _ => none

mutual

-- The number of nodes, owned sub-trees included.
def size : Tree → Nat
  | .node _ children _ => 1 + sizeAll children
  | .function _ params children _ => 1 + (size params + sizeAll children)
  | .loop _ first last children _ => 1 + (size first + (size last + sizeAll children))
  | .giving value children _ => 1 + (size value + sizeAll children)

def sizeAll : List Tree → Nat
  | [] => 0
  | tree :: rest => size tree + sizeAll rest

end

theorem sizeAll_append (trees more : List Tree) :
    sizeAll (trees ++ more) = sizeAll trees + sizeAll more := by
  induction trees with
  | nil => simp [sizeAll]
  | cons tree rest ih => simp only [List.cons_append, sizeAll, ih, Nat.add_assoc]

-- A node counts one beside what is below it.
theorem size_eq (tree : Tree) :
    tree.size = 1 + (sizeAll tree.owned + sizeAll tree.children) := by
  cases tree <;> simp [size, sizeAll, owned, children, Nat.add_assoc]

theorem sizeAll_children_lt (tree : Tree) : sizeAll tree.children < tree.size := by
  rw [size_eq]
  omega

theorem size_le_sizeAll {tree : Tree} {trees : List Tree} (h : tree ∈ trees) :
    tree.size ≤ sizeAll trees := by
  induction trees with
  | nil => cases h
  | cons first rest ih =>
    rw [sizeAll]
    rcases List.mem_cons.mp h with rfl | h
    · omega
    · have hrest := ih h
      omega

theorem size_lt_of_mem_children {child tree : Tree} (h : child ∈ tree.children) :
    child.size < tree.size :=
  Nat.lt_of_le_of_lt (size_le_sizeAll h) (sizeAll_children_lt tree)

-- Counts from a list of trees still to be entered, so that a chain of operators
-- may be as deep as it likes.
private def countFrom (counted : Nat) (pending : List Tree) : Nat :=
  match pending with
  | [] => counted
  | tree :: rest => countFrom (counted + 1) (tree.owned ++ (tree.children ++ rest))
termination_by sizeAll pending
decreasing_by
  simp only [sizeAll_append, sizeAll, size_eq]
  omega

def count (tree : Tree) : Nat := countFrom 0 [tree]

private theorem countFrom_eq (counted : Nat) (pending : List Tree) :
    countFrom counted pending = counted + sizeAll pending := by
  fun_induction countFrom counted pending with
  | case1 counted => simp [sizeAll]
  | case2 counted tree rest ih =>
    simp only [ih, sizeAll_append, sizeAll, size_eq]
    omega

theorem count_eq_size (tree : Tree) : tree.count = tree.size := by
  simp [count, countFrom_eq, sizeAll]

end Tree

end ScriptIR
