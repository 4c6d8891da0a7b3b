import EventFlow.Proofs.Json.Scan

namespace EventFlow.Json

variable {expect next : Expect} {stack stack' : List Open} {token : Token} {rest : List Token}

theorem build?_of_step (h : step? expect stack token = some (next, stack')) :
    build? expect stack (token :: rest) = build? next stack' rest := by
  simp [build?, h]

-- The first token of a value is read in an array as it is read anywhere else.
theorem build?_firstElement (value : Json) (stack : List Open) (rest : List Token) :
    build? .firstElement stack (tokens value ++ rest) =
      build? .value (.array [] :: stack) (tokens value ++ rest) := by
  match value with
  | .null | .bool _ | .number _ | .string _ => rfl
  | .array [] | .array (_ :: _) => rfl
  | .object [] | .object (_ :: _) => rfl

-- The tokens of a value make the value, whatever containers are open around it.
mutual

theorem build?_tokens (value : Json) (stack : List Open) (rest : List Token) :
    build? .value stack (tokens value ++ rest) = build? (.continuation value) stack rest := by
  match value with
  | .null | .bool _ | .number _ | .string _ => rfl
  | .array [] => rfl
  | .array (first :: others) =>
    have hfirst := build?_tokens first (.array [] :: stack)
      (elementTokens others ++ .closeBracket :: rest)
    have hothers := build?_elementTokens others first [] stack rest
    simp only [tokens, List.cons_append, List.append_assoc, List.nil_append]
    rw [build?_of_step rfl, build?_firstElement, hfirst, hothers]
    rfl
  | .object [] => rfl
  | .object ((name, value) :: others) =>
    have hvalue := build?_tokens value (.object [] name :: stack)
      (memberTokens others ++ .closeBrace :: rest)
    have hothers := build?_memberTokens others name value [] stack rest
    simp only [tokens, List.cons_append, List.append_assoc, List.nil_append]
    rw [build?_of_step rfl, build?_of_step rfl, build?_of_step rfl, hvalue, hothers]
    rfl

theorem build?_elementTokens (elements : List Json) (value : Json) (before : List Json)
    (stack : List Open) (rest : List Token) :
    build? (.continuation value) (.array before :: stack)
        (elementTokens elements ++ .closeBracket :: rest) =
      build? (.continuation (.array (before.reverse ++ value :: elements))) stack rest := by
  match elements with
  | [] => simp [elementTokens, build?, step?, afterValue?]
  | element :: others =>
    have helement := build?_tokens element (.array (value :: before) :: stack)
      (elementTokens others ++ .closeBracket :: rest)
    have hothers := build?_elementTokens others element (value :: before) stack rest
    simp only [elementTokens, List.cons_append, List.append_assoc]
    rw [build?_of_step rfl, helement, hothers, List.reverse_cons, List.append_assoc,
      List.singleton_append]

theorem build?_memberTokens (members : List (String × Json)) (name : String) (value : Json)
    (before : List (String × Json)) (stack : List Open) (rest : List Token) :
    build? (.continuation value) (.object before name :: stack)
        (memberTokens members ++ .closeBrace :: rest) =
      build? (.continuation (.object (before.reverse ++ (name, value) :: members))) stack rest := by
  match members with
  | [] => simp [memberTokens, build?, step?, afterValue?]
  | (name', value') :: others =>
    have hvalue := build?_tokens value' (.object ((name, value) :: before) name' :: stack)
      (memberTokens others ++ .closeBrace :: rest)
    have hothers := build?_memberTokens others name' value' ((name, value) :: before) stack rest
    simp only [memberTokens, List.cons_append, List.append_assoc]
    rw [build?_of_step rfl, build?_of_step rfl, build?_of_step rfl, hvalue, hothers,
      List.reverse_cons, List.append_assoc, List.singleton_append]

end

-- A value is read back from its text.
theorem parse?_pretty (value : Json) : parse? value.pretty = some value := by
  have hscan : Token.scan? .between (write 0 value) = some (tokens value) := by
    have hend : Token.Ends [] := by rintro c ⟨⟩
    have hwrite := scan?_write 0 value hend
    simpa [Token.scan?] using hwrite
  have hbuild : build? .value [] (tokens value) = some value := by
    have htokens := build?_tokens value [] []
    simpa [build?] using htokens
  simp [parse?, pretty, hscan, hbuild]

end EventFlow.Json
