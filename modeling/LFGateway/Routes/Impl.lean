import LFGateway.Pools.Impl.Ops

/-!
This module contains how the rules of the router are loaded, and the management commands that ask
MySQL. A program returns `none` where the function throws.
-/

namespace LFGateway

open Foundation

/--
`row[k]` as the C string it is used as.
-/
def Row.col (row : Row) (k : Nat) : Option Bytes := (row[k]?).join.map Bytes.cStr

namespace Router

/--
The rule that `loadFromMySQL` makes of a row.
-/
def ruleOfRow (row : Row) : Except StdException LoadedRule := do
  let id ← match row.col 0 with | some text => stoi text | none => pure 0
  let pathPattern := (row.col 1).getD []
  let targetHost := (row.col 2).getD []
  let targetPort ← match row.col 3 with | some text => stoi text | none => pure 0
  let needAuth ← match row.col 4 with | some text => (stoi text).map fun n => decide (n ≠ 0) | none => pure true
  let rateLimit ← match row.col 5 with | some text => stoi text | none => pure 0
  return ⟨⟨pathPattern, needAuth, rateLimit⟩, id, targetHost, targetPort⟩

/--
The loop of `loadFromMySQL`; an exception drops the rules of the rows before.
-/
def rulesOfRows : List Row → Except StdException (List LoadedRule)
  | [] => return []
  | row :: rows => return (← ruleOfRow row) :: (← rulesOfRows rows)

def loadFromMySQL : PoolProg (Option Bool) := do
  match ← Pools.perform .mysqlAcquire with
  | none => return none
  | some conn =>
    if !(← Pools.perform (.mysqlQuery conn .selectRoutes)) then
      Pools.perform (.mysqlRelease conn)
      return some false
    else
      match ← Pools.perform (.mysqlStoreResult conn) with
      | none =>
        Pools.perform (.mysqlRelease conn)
        return some false
      | some rows =>
        match rulesOfRows rows with
        -- `conn` is not released
        | .error _ => return none
        | .ok newRules =>
          Pools.perform (.mysqlRelease conn)
          Pools.perform (.swapRules newRules)
          return some true

def reload : PoolProg (Option Bool) := loadFromMySQL

end Router

namespace Gateway

def addRoute (_json : Bytes) : PoolProg (Option Bool) := Router.reload

/--
The digits that `deleteRoute` takes for the id, `none` where it finds none.
-/
def idText (json : Bytes) : Option Bytes := do
  let idPos ← json.find (Bytes.ofAscii "\"id\"")
  let colon ← Bytes.findByte 58 (json.drop idPos)
  let digits := (json.drop (idPos + colon)).dropWhile fun b => !isdigit b
  if digits = [] then none else some (digits.takeWhile isdigit)

def deleteRoute (json : Bytes) : PoolProg (Option Bool) := do
  match idText json with
  | none => return some false
  | some idStr =>
    match stoi idStr with
    | .error _ => return none
    | .ok routeId =>
      match ← Pools.perform .mysqlAcquire with
      | none => return none
      | some conn =>
        let ok ← Pools.perform (.mysqlQuery conn (.deleteRoute routeId))
        Pools.perform (.mysqlRelease conn)
        if ok then
          -- what `reload` returns is not looked at
          match ← Router.reload with
          | none => return none
          | some _ => return some true
        else
          return some false

def colOr (row : Row) (k : Nat) (other : String) : Bytes := (row.col k).getD (Bytes.ofAscii other)

def logJson (row : Row) : Bytes :=
  Bytes.ofAscii "\x7b" ++
    Bytes.ofAscii "\"path\":\"" ++ colOr row 0 "" ++ Bytes.ofAscii "\"," ++
    Bytes.ofAscii "\"userId\":" ++ colOr row 1 "0" ++ Bytes.ofAscii "," ++
    Bytes.ofAscii "\"status\":" ++ colOr row 2 "0" ++ Bytes.ofAscii "," ++
    Bytes.ofAscii "\"latency\":" ++ colOr row 3 "0" ++ Bytes.ofAscii "," ++
    Bytes.ofAscii "\"time\":\"" ++ colOr row 4 "" ++ Bytes.ofAscii "\"" ++
    Bytes.ofAscii "\x7d"

def routeJson (row : Row) : Bytes :=
  Bytes.ofAscii "\x7b" ++
    Bytes.ofAscii "\"id\":" ++ colOr row 0 "0" ++ Bytes.ofAscii "," ++
    Bytes.ofAscii "\"path\":\"" ++ colOr row 1 "" ++ Bytes.ofAscii "\"," ++
    Bytes.ofAscii "\"target\":\"" ++ colOr row 2 "" ++ Bytes.ofAscii ":" ++ colOr row 3 "0" ++
    Bytes.ofAscii "\"," ++
    Bytes.ofAscii "\"auth\":" ++
    (match row.col 4 with
      | some text => if text = Bytes.ofAscii "1" then Bytes.ofAscii "true" else Bytes.ofAscii "false"
      | none => Bytes.ofAscii "true") ++
    Bytes.ofAscii "," ++
    Bytes.ofAscii "\"rateLimit\":" ++ colOr row 5 "0" ++
    Bytes.ofAscii "\x7d"

def separated (texts : List Bytes) : Bytes := List.intercalate (Bytes.ofAscii ",") texts

/--
The texts that `getLogsJson` and `getRouteListJson` make of what a query returns. They do not come
back from `mysql_fetch_row` on a null pointer.
-/
def tableJson (query : Query) (json : Row → Bytes) : PoolProg (Option Bytes) := do
  match ← Pools.perform .mysqlAcquire with
  | none => return none
  | some conn =>
    if ← Pools.perform (.mysqlQuery conn query) then
      match ← Pools.perform (.mysqlStoreResult conn) with
      | none => return none
      | some rows =>
        Pools.perform (.mysqlRelease conn)
        return some (Bytes.ofAscii "[" ++ separated (rows.map json) ++ Bytes.ofAscii "]")
    else
      Pools.perform (.mysqlRelease conn)
      return some (Bytes.ofAscii "[]")

def getLogsJson (_params : Bytes) : PoolProg (Option Bytes) := tableJson .selectLogs logJson

def getRouteListJson : PoolProg (Option Bytes) := tableJson .selectRoutes routeJson

end Gateway

namespace MgmtHandler

def okText : Bytes := Bytes.ofAscii "\x7b\"result\": \"ok\"\x7d\n"

def failedText : Bytes := Bytes.ofAscii "\x7b\"error\": \"failed\"\x7d\n"

/--
What is sent for the result of a command, nothing if it throws.
-/
def report (ok : Option Bool) : PoolProg Unit :=
  match ok with
  | some true => Pools.perform (.api (.send okText))
  | some false => Pools.perform (.api (.send failedText))
  | none => return ()

def handleRouteAdd (body : Bytes) : PoolProg Unit := do report (← Gateway.addRoute body)

def handleRouteDelete (body : Bytes) : PoolProg Unit := do report (← Gateway.deleteRoute body)

def sendLine (text : Option Bytes) : PoolProg Unit :=
  match text with
  | some text => Pools.perform (.api (.send (text ++ Bytes.ofAscii "\n")))
  | none => return ()

def handleRouteList : PoolProg Unit := do sendLine (← Gateway.getRouteListJson)

def handleLogQuery (body : Bytes) : PoolProg Unit := do sendLine (← Gateway.getLogsJson body)

end MgmtHandler
end LFGateway
