namespace PLZero

/-- How many words a frame has besides arguments and variables: the base of the enclosing block's frame, the base of
the caller's frame, the address to go on at, and the result of a function. -/
def frameSize : Nat := 4

def staticLink : Int := 0

def savedBase : Int := 1

def returnAddress : Int := 2

def resultSlot : Int := 3

end PLZero
