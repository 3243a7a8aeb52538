/-
Everything that can be wrong with a rule, a document or a request, by cause, and the wording of each.
-/
import Eligibility.Branch
import Eligibility.Json.Writing
import Eligibility.Token.Basic

namespace Eligibility

/-- What is wrong with rule text. -/
inductive SyntaxFault where
  | unknownComparator (run : String)
  | unclosedText
  | foreignDigits (word : String)
  | numberOutOfRange (word : String)
  | unknownWord (word : String)
  | noRule
  | tooDeep (limit : Nat)
  | nestedTooDeep (limit : Nat)
  | missingRule
  | missingOperand (connective : Connective)
  | emptyParens
  | missingAttribute (comparator : Comparator)
  | literalFirst (found : Token.Kind)
  | unclosedParen
  | expectedCloseParen (found : Token.Kind)
  | strayCloseParen
  | missingComparison
  | expectedAttribute (found : Token.Kind)
  | missingComparator (name : String)
  | expectedComparator (name : String) (found : Token.Kind)
  | adjacentNames (found : Token.Kind)
  | missingLiteral (name : String) (comparator : Comparator)
  | expectedLiteral (found : Token.Kind)
  | adjacentLiterals (found : Token.Kind)
  | expectedConnective (found : Token.Kind)

/-- What is wrong with a value that a caller gave. -/
inductive ValueFault where
  | unknownPolicy (key : String)
  | badPathSegment (segment : String)
  | pathLeavesRule (comparison : Comparison) (branch : Branch)
  | depthOverLimit (depth limit : Nat)
  | combinationOverLimit (limit : Nat)
  | nothingToCombine
  | predicateOnOperator (comparison : Comparison)
  | missingChild (connective : Connective)
  | childOfOperand
  | badAttributeName (name : String)
  | attributesNotObject (document : Json)
  | unsupportedAttribute (name : String) (value : Json)

/-- Why a rule cannot be evaluated on some attributes. -/
inductive EvaluationFault where
  | missingAttribute (name : String)
  | typeMismatch (comparison : Comparison) (actual : String)

/-- Why a request was refused. -/
inductive Fault where
  | badRule (position : Nat) (fault : SyntaxFault)
  | badValue (fault : ValueFault)
  | evaluation (fault : EvaluationFault)
  | ruleNotFound (id : String)
  /-- The text is no JSON document of the kind that was asked for. -/
  | badDocument
  /-- A node of a document was complete but makes no rule. -/
  | badNode (cause : Fault)

namespace SyntaxFault

/-- The wording of a fault of rule text. -/
def message : SyntaxFault → String
  | unknownComparator run => s!"未知的比较运算符 '{run}'"
  | unclosedText => "字符串未闭合"
  | foreignDigits word => s!"无效的数字 '{word}': invalid float literal"
  | numberOutOfRange word => s!"数字超出可表示范围: {word}"
  | unknownWord word => s!"无法识别的记号 '{word}'"
  | noRule => "规则为空"
  | tooDeep limit => s!"规则树深度超过上限 {limit}"
  | nestedTooDeep limit => s!"括号嵌套超过上限 {limit}"
  | missingRule => "规则意外结束，缺少比较表达式"
  | missingOperand connective => s!"连接词 {connective.keyword} 缺少左侧操作数"
  | emptyParens => "意外的 ')'，括号内缺少比较表达式"
  | missingAttribute comparator => s!"{(Token.Kind.comparator comparator).display} 缺少属性名"
  | literalFirst found => s!"比较表达式必须以属性名开头，实际为 {found.display}"
  | unclosedParen => "左括号未闭合"
  | expectedCloseParen found => s!"期望 ')'，实际为 {found.display}"
  | strayCloseParen => "多余的 ')'，没有匹配的左括号"
  | missingComparison => "缺少比较表达式"
  | expectedAttribute found => s!"期望属性名，实际为 {found.display}"
  | missingComparator name => s!"属性 '{name}' 之后缺少比较运算符"
  | expectedComparator name found => s!"属性 '{name}' 之后期望比较运算符，实际为 {found.display}"
  | adjacentNames found => s!"两个标识符相邻: {found.display}"
  | missingLiteral name comparator => s!"'{name} {comparator.symbol}' 之后缺少字面量"
  | expectedLiteral found => s!"字面量必须是数字或带引号的字符串，实际为 {found.display}"
  | adjacentLiterals found => s!"两个字面量相邻: {found.display}"
  | expectedConnective found => s!"意外的 {found.display}，期望 AND、OR 或结束"

end SyntaxFault

namespace ValueFault

/-- The wording of a fault of a given value. -/
def message : ValueFault → String
  | unknownPolicy key => s!"未知的合并策略 '{key}'，应为 AND 或 OR"
  | badPathSegment segment => s!"无效的路径段 '{segment}'，应为 left 或 right"
  | pathLeavesRule comparison branch =>
    s!"路径越界: 操作数节点 '{comparison.render}' 没有 {branch.word} 子节点"
  | depthOverLimit depth limit => s!"规则树深度 {depth} 超过上限 {limit}"
  | combinationOverLimit limit => s!"合并后的规则树深度超过上限 {limit}"
  | nothingToCombine => "待合并的规则列表不能为空"
  | predicateOnOperator comparison => s!"操作符节点的值必须是 AND 或 OR，实际为谓词 '{comparison.render}'"
  | missingChild connective => s!"操作符节点 {connective.keyword} 必须同时包含左右子节点"
  | childOfOperand => "操作数节点不能包含子节点"
  | badAttributeName name => s!"属性名 '{name}' 不是合法的标识符"
  | attributesNotObject document => s!"属性集合必须是 JSON 对象，实际为: {document.compact}"
  | unsupportedAttribute name value =>
    s!"属性 '{name}' 的值类型不受支持: {value.compact}（仅支持数字、字符串、布尔）"

end ValueFault

namespace EvaluationFault

/-- The wording of a fault of evaluation. -/
def message : EvaluationFault → String
  | missingAttribute name => s!"属性不存在: {name}"
  | typeMismatch comparison actual =>
    s!"类型不匹配: {comparison.name} {comparison.comparator.symbol} 期望 number, 实际 {actual}"

end EvaluationFault

namespace Fault

/-- The wording of a refusal. -/
def message : Fault → String
  | badRule position fault => s!"语法错误 (位置 {position}): {fault.message}"
  | badValue fault => s!"参数无效: {fault.message}"
  | evaluation fault => s!"规则评估失败: {fault.message}"
  | ruleNotFound id => s!"规则未找到: {id}"
  | badDocument => "JSON 序列化错误"
  | badNode cause => s!"JSON 序列化错误: {cause.message}"

end Fault
end Eligibility
