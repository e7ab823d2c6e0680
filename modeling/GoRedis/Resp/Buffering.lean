import GoRedis.Resp.Chunking

/-! How much a connection can have buffered.

The parser limits the numbers it reads: the arguments of a request, the bytes of an argument.
It limits an inline line that is not terminated too, but not the lines of an array that say
how many arguments there are and how long they are. Their text can have any number of leading
zeros, and while such a line has no `\r\n` nothing of it is read at all. What is buffered is
bounded as far as those lines are. -/
namespace GoRedis.CommandParser
open Incremental

variable {b b' : Bytes}

/-! ### Lines of an array -/

end GoRedis.CommandParser
