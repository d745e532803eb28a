import ScriptIR.Grammar.Declaration

namespace ScriptIR.Grammar

-- The spellings of trees, rule by rule. These relations look at no token ahead
-- and say nothing of how a list is read. Words and marks are told apart by
-- their kinds only, and may have any text and place.

mutual

inductive ExpressionSpelling : Tree → List Token → Prop
  | operand {tree : Tree} {word : List Token} : OperandSpelling tree word →
      ExpressionSpelling tree word
  | binary {left right : Tree} {front back : List Token} {sign : Operator} {token : Token} :
      OperandSpelling left front → token.kind = .operator sign → ExpressionSpelling right back →
      ExpressionSpelling
        (.node .expression [left, .node (.operator token.text) [] token.place, right] left.place)
        (front ++ token :: back)

inductive OperandSpelling : Tree → List Token → Prop
  | group {tree : Tree} {word : List Token} {opening closing : Token} :
      opening.kind = .mark .leftParen → closing.kind = .mark .rightParen →
      ExpressionSpelling tree word → OperandSpelling tree (opening :: (word ++ [closing]))
  | call {tree : Tree} {word : List Token} {name opening : Token} :
      name.kind = .identifier → opening.kind = .mark .leftParen →
      CallSpelling name.text name.place tree word → OperandSpelling tree (name :: opening :: word)
  | access {tree : Tree} {word : List Token} {name opening : Token} :
      name.kind = .identifier → opening.kind = .mark .leftBracket →
      AccessSpelling name.text name.place tree word →
      OperandSpelling tree (name :: opening :: word)
  | name {token : Token} : token.kind = .identifier →
      OperandSpelling (identifierNode token.text token.place) [token]
  | literal {form : Literal} {token : Token} : token.kind = .literal form →
      OperandSpelling (.node (.literal token.text) [] token.place) [token]

-- A call behind its opening parenthesis.
inductive CallSpelling : String → Location → Tree → List Token → Prop
  | empty {name : String} {place : Location} {closing : Token} :
      closing.kind = .mark .rightParen →
      CallSpelling name place (.node .call [identifierNode name place] place) [closing]
  | given {name : String} {place : Location} {values : List Tree} {word : List Token}
      {closing : Token} : closing.kind = .mark .rightParen → ArgumentsSpelling values word →
      CallSpelling name place
        (.node .call
          [identifierNode name place, .node .argumentList values (nextPlace word)] place)
        (word ++ [closing])

inductive ArgumentsSpelling : List Tree → List Token → Prop
  | last {value : Tree} {word : List Token} : ExpressionSpelling value word →
      ArgumentsSpelling [value] word
  | more {value : Tree} {values : List Tree} {front back : List Token} {comma : Token} :
      ExpressionSpelling value front → comma.kind = .mark .comma →
      ArgumentsSpelling values back → ArgumentsSpelling (value :: values) (front ++ comma :: back)

-- An element of an array behind its opening bracket.
inductive AccessSpelling : String → Location → Tree → List Token → Prop
  | index {name : String} {place : Location} {index : Tree} {word : List Token} {closing : Token} :
      closing.kind = .mark .rightBracket → ExpressionSpelling index word →
      AccessSpelling name place (.node .arrayAccess [identifierNode name place, index] place)
        (word ++ [closing])

end

mutual

inductive ItemSpelling : Tree → List Token → Prop
  | array {tree : Tree} {word : List Token} {opening : Token} :
      opening.kind = .mark .leftBracket → ArraySpelling none opening.place tree word →
      ItemSpelling tree (opening :: word)
  | keyValue {tree : Tree} {word : List Token} {opening : Token} :
      opening.kind = .mark .leftBrace → KeyValueSpelling none opening.place tree word →
      ItemSpelling tree (opening :: word)
  | expression {tree : Tree} {word : List Token} : ExpressionSpelling tree word →
      ItemSpelling tree word

-- An array behind its opening bracket.
inductive ArraySpelling : Option String → Location → Tree → List Token → Prop
  | items {name : Option String} {place : Location} {values : List Tree} {word : List Token}
      {closing : Token} : closing.kind = .mark .rightBracket → ItemsSpelling values word →
      ArraySpelling name place
        (.node (.array name) [.node .expressionList values (nextPlace word)] place)
        (word ++ [closing])

-- A block of pairs behind its opening brace.
inductive KeyValueSpelling : Option String → Location → Tree → List Token → Prop
  | empty {name : Option String} {place : Location} {closing : Token} :
      closing.kind = .mark .rightBrace →
      KeyValueSpelling name place (.node (.keyValue name) [] place) [closing]
  | pairs {name : Option String} {place : Location} {entries : List Tree} {word : List Token}
      {closing : Token} : closing.kind = .mark .rightBrace → PairsSpelling entries word →
      KeyValueSpelling name place (.node (.keyValue name) entries place) (word ++ [closing])

inductive ItemsSpelling : List Tree → List Token → Prop
  | last {value : Tree} {word : List Token} : ItemSpelling value word → ItemsSpelling [value] word
  | more {value : Tree} {values : List Tree} {front back : List Token} {comma : Token} :
      ItemSpelling value front → comma.kind = .mark .comma → ItemsSpelling values back →
      ItemsSpelling (value :: values) (front ++ comma :: back)

inductive PairSpelling : Tree → List Token → Prop
  | pair {key value : Tree} {front back : List Token} {colon : Token} :
      ExpressionSpelling key front → colon.kind = .mark .colon → ItemSpelling value back →
      PairSpelling (.node .pair [key, value] (nextPlace front)) (front ++ colon :: back)

inductive PairsSpelling : List Tree → List Token → Prop
  | last {entry : Tree} {word : List Token} : PairSpelling entry word → PairsSpelling [entry] word
  | more {entry : Tree} {entries : List Tree} {front back : List Token} {comma : Token} :
      PairSpelling entry front → comma.kind = .mark .comma → PairsSpelling entries back →
      PairsSpelling (entry :: entries) (front ++ comma :: back)

end

-- The left side of an assignment behind its name.
inductive TargetSpelling : String → Location → Tree → List Token → Prop
  | name {name : String} {place : Location} :
      TargetSpelling name place (identifierNode name place) []
  | element {name : String} {place : Location} {opening : Token} {tree : Tree} {word : List Token} :
      opening.kind = .mark .leftBracket → AccessSpelling name place tree word →
      TargetSpelling name place tree (opening :: word)

-- An assignment behind its name.
inductive AssignmentSpelling : String → Location → Tree → List Token → Prop
  | assign {name : String} {place : Location} {target value : Tree} {front back : List Token}
      {sign semicolon : Token} : sign.kind = .mark .assign → semicolon.kind = .mark .semicolon →
      TargetSpelling name place target front → ExpressionSpelling value back →
      AssignmentSpelling name place (.node .assignment [target, value] place)
        (front ++ sign :: (back ++ [semicolon]))

-- A return behind its keyword.
inductive ReturnSpelling : Location → Tree → List Token → Prop
  | bare {place : Location} {semicolon : Token} : semicolon.kind = .mark .semicolon →
      ReturnSpelling place (.node .bareReturn [] place) [semicolon]
  | giving {place : Location} {value : Tree} {word : List Token} {semicolon : Token} :
      semicolon.kind = .mark .semicolon → ExpressionSpelling value word →
      ReturnSpelling place (.giving value [] place) (word ++ [semicolon])

-- The parenthesis of an if.
inductive ConditionSpelling : Tree → List Token → Prop
  | parens {tree : Tree} {word : List Token} {opening closing : Token} :
      opening.kind = .mark .leftParen → closing.kind = .mark .rightParen →
      ExpressionSpelling tree word → ConditionSpelling tree (opening :: (word ++ [closing]))

-- The parenthesis of a loop.
inductive LoopHeadSpelling : String × Tree × Tree → List Token → Prop
  | parens {first last : Tree} {front back : List Token}
      {opening counter colon comma closing : Token} :
      opening.kind = .mark .leftParen → counter.kind = .identifier → colon.kind = .mark .colon →
      comma.kind = .mark .comma → closing.kind = .mark .rightParen →
      ExpressionSpelling first front → ExpressionSpelling last back →
      LoopHeadSpelling (counter.text, first, last)
        (opening :: counter :: colon :: (front ++ comma :: (back ++ [closing])))

mutual

-- A statement hangs where it ends in an if without an else, as an else behind
-- it would belong to that if.
inductive StatementSpelling : Bool → Tree → List Token → Prop
  | call {tree : Tree} {word : List Token} {name opening semicolon : Token} :
      name.kind = .identifier → opening.kind = .mark .leftParen →
      semicolon.kind = .mark .semicolon → CallSpelling name.text name.place tree word →
      StatementSpelling false tree (name :: opening :: (word ++ [semicolon]))
  | assignment {tree : Tree} {word : List Token} {name : Token} : name.kind = .identifier →
      AssignmentSpelling name.text name.place tree word →
      StatementSpelling false tree (name :: word)
  | branching {hangs : Bool} {tree : Tree} {word : List Token} {ifWord : Token} :
      ifWord.kind = .keyword .ifWord → IfSpelling hangs ifWord.place tree word →
      StatementSpelling hangs tree (ifWord :: word)
  | loop {hangs : Bool} {tree : Tree} {word : List Token} {forWord : Token} :
      forWord.kind = .keyword .forWord → LoopSpelling hangs forWord.place tree word →
      StatementSpelling hangs tree (forWord :: word)
  | returning {tree : Tree} {word : List Token} {returnWord : Token} :
      returnWord.kind = .keyword .returnWord → ReturnSpelling returnWord.place tree word →
      StatementSpelling false tree (returnWord :: word)
  | block {statements : List Tree} {word : List Token} {opening : Token} :
      opening.kind = .mark .leftBrace → BodySpelling statements word →
      StatementSpelling false (.node .block statements opening.place) (opening :: word)

-- An if behind its keyword.
inductive IfSpelling : Bool → Location → Tree → List Token → Prop
  | lone {hangs : Bool} {place : Location} {tree branch : Tree} {front back : List Token} :
      ConditionSpelling tree front → StatementSpelling hangs branch back →
      IfSpelling true place (.node .ifStatement [tree, branch] place) (front ++ back)
  | withElse {hangs : Bool} {place : Location} {tree branch other : Tree}
      {front middle back : List Token} {elseWord : Token} : ConditionSpelling tree front →
      StatementSpelling false branch middle → elseWord.kind = .keyword .elseWord →
      StatementSpelling hangs other back →
      IfSpelling hangs place
        (.node .ifStatement [tree, branch, .node .elseStatement [other] elseWord.place] place)
        (front ++ (middle ++ elseWord :: back))

-- A loop behind its keyword. A brace opens the body of the loop and no block.
inductive LoopSpelling : Bool → Location → Tree → List Token → Prop
  | braced {place : Location} {counter : String} {first last : Tree} {statements : List Tree}
      {front back : List Token} {opening : Token} :
      LoopHeadSpelling (counter, first, last) front → opening.kind = .mark .leftBrace →
      BodySpelling statements back →
      LoopSpelling false place (.loop counter first last statements place)
        (front ++ opening :: back)
  | single {hangs : Bool} {place : Location} {counter : String} {first last only : Tree}
      {front back : List Token} {next : Token} : LoopHeadSpelling (counter, first, last) front →
      next.kind ≠ .mark .leftBrace → StatementSpelling hangs only (next :: back) →
      LoopSpelling hangs place (.loop counter first last [only] place) (front ++ next :: back)

-- Statements and the closing brace behind them.
inductive BodySpelling : List Tree → List Token → Prop
  | close {closing : Token} : closing.kind = .mark .rightBrace → BodySpelling [] [closing]
  | cons {hangs : Bool} {tree : Tree} {statements : List Tree} {front back : List Token} :
      StatementSpelling hangs tree front → BodySpelling statements back →
      BodySpelling (tree :: statements) (front ++ back)

end

inductive ParametersSpelling : List Tree → List Token → Prop
  | last {name : Token} : name.kind = .identifier →
      ParametersSpelling [identifierNode name.text name.place] [name]
  | more {names : List Tree} {back : List Token} {name comma : Token} :
      name.kind = .identifier → comma.kind = .mark .comma → ParametersSpelling names back →
      ParametersSpelling (identifierNode name.text name.place :: names) (name :: comma :: back)

-- The parameters of a function and the closing parenthesis.
inductive ParameterListSpelling : Tree → List Token → Prop
  | empty {closing : Token} : closing.kind = .mark .rightParen →
      ParameterListSpelling (.node .paramList [] closing.place) [closing]
  | names {names : List Tree} {word : List Token} {closing : Token} :
      closing.kind = .mark .rightParen → ParametersSpelling names word →
      ParameterListSpelling (.node .paramList names (nextPlace word)) (word ++ [closing])

-- The main function behind its keyword.
inductive MainSpelling : Location → Tree → List Token → Prop
  | main {place : Location} {statements : List Tree} {back : List Token}
      {left right opening : Token} : left.kind = .mark .leftParen →
      right.kind = .mark .rightParen → opening.kind = .mark .leftBrace →
      BodySpelling statements back →
      MainSpelling place (.node .main statements place) (left :: right :: opening :: back)

-- A function behind its keyword.
inductive FunctionSpelling : Location → Tree → List Token → Prop
  | function {place : Location} {params : Tree} {statements : List Tree} {front back : List Token}
      {name left opening : Token} : name.kind = .identifier → left.kind = .mark .leftParen →
      ParameterListSpelling params front → opening.kind = .mark .leftBrace →
      BodySpelling statements back →
      FunctionSpelling place (.function name.text params statements place)
        (name :: left :: (front ++ opening :: back))

-- The three declarations of a variable behind the name.
inductive VariableSpelling : String → Location → Tree → List Token → Prop
  | array {name : String} {place : Location} {sign opening semicolon : Token} {tree : Tree}
      {word : List Token} : sign.kind = .mark .assign → opening.kind = .mark .leftBracket →
      semicolon.kind = .mark .semicolon → ArraySpelling (some name) place tree word →
      VariableSpelling name place tree (sign :: opening :: (word ++ [semicolon]))
  | keyValue {name : String} {place : Location} {sign opening semicolon : Token} {tree : Tree}
      {word : List Token} : sign.kind = .mark .assign → opening.kind = .mark .leftBrace →
      semicolon.kind = .mark .semicolon → KeyValueSpelling (some name) place tree word →
      VariableSpelling name place tree (sign :: opening :: (word ++ [semicolon]))
  | value {name : String} {place : Location} {sign semicolon : Token} {tree : Tree}
      {word : List Token} : sign.kind = .mark .assign → semicolon.kind = .mark .semicolon →
      ExpressionSpelling tree word →
      VariableSpelling name place (.node (.varDecl name) [tree] place)
        (sign :: (word ++ [semicolon]))

inductive DeclarationSpelling : Tree → List Token → Prop
  | main {tree : Tree} {word : List Token} {mainWord : Token} :
      mainWord.kind = .keyword .mainWord → MainSpelling mainWord.place tree word →
      DeclarationSpelling tree (mainWord :: word)
  | function {tree : Tree} {word : List Token} {functionWord : Token} :
      functionWord.kind = .keyword .functionWord →
      FunctionSpelling functionWord.place tree word →
      DeclarationSpelling tree (functionWord :: word)
  | named {tree : Tree} {word : List Token} {name : Token} : name.kind = .identifier →
      VariableSpelling name.text name.place tree word → DeclarationSpelling tree (name :: word)

inductive ProgramSpelling : List Tree → List Token → Prop
  | nil : ProgramSpelling [] []
  | cons {tree : Tree} {trees : List Tree} {front back : List Token} :
      DeclarationSpelling tree front → ProgramSpelling trees back →
      ProgramSpelling (tree :: trees) (front ++ back)

end ScriptIR.Grammar
