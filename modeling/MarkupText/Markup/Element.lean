import MarkupText.Markup.Token

namespace MarkupText

namespace Kind

def ofTag (name : Text) (edge : Edge) : Kind :=
  let is (s : String) := Text.sameCaseless name s.toList
  if is "title" then title edge
  else if is "head" then head edge
  else if is "noindex" then noIndex edge
  else if is "a" then anchor edge
  else if is "img" then image
  else if is "frame" || is "iframe" then frame
  else if is "base" then base
  else if is "meta" then metadata
  else tag edge

def ofComment (body : Text) : Kind :=
  let is (s : String) := Text.sameCaseless body s.toList
  if is "noindex" then noIndex .opening
  else if is "/noindex" then noIndex .closing
  else comment

end Kind

def rawElements : List Text := ["script".toList, "style".toList]

def inlineElements : List Text :=
  ["b".toList, "i".toList, "span".toList, "em".toList, "font".toList, "br".toList,
    "strong".toList, "u".toList]

def isInline (name : Text) : Bool := inlineElements.any (Text.sameCaseless name)

end MarkupText
