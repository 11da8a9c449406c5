import CommandFrame.Line.Token

/-!
# Writing a word into a line

`Quote.escape` writes a text so that it is one word between the delimiters of
the quote.  Braces know no escapes, and the text is written as it is.
-/

namespace CommandFrame.Line.Quote

def special : Quote → Text
  | .bare => " \t\n;\x7b\x7d\"\\[]"
  | .brace => []
  | .double => "\"\\["

def escape (quote : Quote) (text : Text) : Text :=
  text.flatMap fun c => if quote.special.contains c then ['\\', c] else [c]

end CommandFrame.Line.Quote
