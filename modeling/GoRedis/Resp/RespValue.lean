import GoRedis.Lib.Decimal
import GoRedis.Store.HashTable

/-! Replies and their wire form (`resp/resp_value.cpp`). -/
namespace GoRedis

/-- The bytes of a string constant of the source. -/
def ascii (s : String) : Bytes := s.toList.map fun c => UInt8.ofNat c.toNat

def crlf : Bytes := [13, 10]

/-- `RespValue`, one constructor for each of its factory functions. -/
inductive RespValue where
  | simpleString (str : Bytes)
  | error (message : Bytes)
  | integer (n : Int)
  | bulkString (str : Bytes)
  | nilBulkString
  | array (items : List RespValue)
  | nilArray

namespace RespValue

mutual

def encode : RespValue → Bytes
  | .simpleString str => 43 :: str ++ crlf
  | .error message => 45 :: message ++ crlf
  | .integer n => 58 :: Decimal.intText n ++ crlf
  | .bulkString str => 36 :: Decimal.text str.length ++ crlf ++ str ++ crlf
  | .nilBulkString => ascii "$-1" ++ crlf
  | .array items => 42 :: Decimal.text items.length ++ crlf ++ encodeItems items
  | .nilArray => ascii "*-1" ++ crlf

def encodeItems : List RespValue → Bytes
  | [] => []
  | item :: items => encode item ++ encodeItems items

end

end RespValue
end GoRedis
