/-!
# The program

The name and version under which reports are written.
-/
namespace TokenFlow.Program

def name : String := "dfgraph"

def version : String := "0.1.0"

end TokenFlow.Program
